import Mars.Channel
import Mars.Container.HookFailures
import Mars.Container.Wedge
import Mars.Rootfs.Mounts

/-! # What create makes of a report

The messages of a create go over the wire as packets. The first report that
comes out of it whole is the error that `create` returns.
-/

namespace Mars.Protocol
open Spec Namespace Hooks Sync History

/-! ## Packets between the parties -/

def receives : Op → Bool
  | .prepare .recv => true
  | .mapping .recv => true
  | .settle .expectInitReady => true
  | .intermediate .expectUserMappingDone => true
  | .init .expectCgroupApplied => true
  | _ => false

def World.queue (w : World) : Who → List Message
  | .parent => w.toParent
  | _ => w.toChild

def World.setQueue (w : World) (who : Who) (messages : List Message) : World :=
  match who with
  | .parent => { w with toParent := messages }
  | _ => { w with toChild := messages }

/-- What the party's next step reads from. -/
def World.arriving (w : World) (who : Who) : List Message :=
  if (w.party who).ops.head?.any receives then w.queue who else []

/-- A step of a create, where a message is what `recv` makes of its packet. -/
def wiredStep (serde : Serde) (s : Setting) (w : World) : Event → Option World
  | .act who fault =>
      match w.arriving who with
      | [] => step s w (.act who fault)
      | message :: rest =>
          match recv serde message.toVec with
          | .ok received => step s (w.setQueue who (received :: rest)) (.act who fault)
          | .error error => step s (w.setQueue who rest) (.act who (some (fault.getD error)))
  | event => step s w event

/-! ## Reports -/

def reasonOf : Message → Option String
  | .failed reason => some reason
  | _ => none

def reportOf (e : Entry Op) : Option String :=
  match e.op, e.ok with
  | .failing (.sendFailed reason), true => some reason
  | _, _ => none

/-- The reasons that init and the intermediate have sent, in order. -/
def World.reported (w : World) : List String := w.log.filterMap reportOf

/-- The runtime's next step succeeds, unless it reads a report. -/
def World.Untroubled (s : Setting) (w : World) : Prop :=
  match (w.party .parent).ops with
  | [] => True
  | op :: rest =>
      match perform s (w.setOps .parent rest) .parent op with
      | .failed _ _ => receives op = true ∧ (w.toParent.head?.bind reasonOf).isSome = true
      | _ => True

/-- What is read fits, the runtime meets no error of its own, and nothing is
reported behind init's message that it is ready. -/
def Undisturbed (s : Setting) (w : World) : Event → Prop
  | .act who fault =>
      (∀ m ∈ (w.arriving who).head?, m.toVec.size ≤ MAX_MESSAGE) ∧
      (who = .parent → w.error = none → fault = none ∧ w.Untroubled s) ∧
      ((w.party who).ops.head?.any sendsFailed = true → ⟨.init .sendInitReady, true⟩ ∉ w.log)
  | _ => True

section wired
variable {serde : Serde} {s : Setting} {w w' : World} {who : Who} {event : Event}

theorem setQueue_self {m : Message} {rest : List Message} (h : w.queue who = m :: rest) :
    w.setQueue who (m :: rest) = w := by
  cases who <;> rw [← h] <;> rfl

/-- Messages that fit are as good as the queue they are in. -/
theorem wiredStep_eq (h : Undisturbed s w event) : wiredStep serde s w event = step s w event := by
  cases event with
  | act who fault =>
      cases harriving : w.arriving who with
      | nil => simp only [wiredStep, harriving]
      | cons m rest =>
          have hfits : m.toVec.size ≤ MAX_MESSAGE := h.1 m (by rw [harriving]; rfl)
          have hqueue : w.queue who = m :: rest := by
            unfold World.arriving at harriving
            split at harriving
            next => exact harriving
            next => cases harriving
          simp only [wiredStep, harriving, recv_whole hfits, setQueue_self hqueue]
  | _ => rfl

end wired

/-! ## What has been reported and what create knows of it -/

/-- The reports are in the queue until the runtime reads the first of them, and
none of them is behind init's message that it is ready. -/
structure Told (w : World) : Prop where
  queued : w.error = none → w.reported = w.toParent.filterMap reasonOf
  answered : ∀ error, w.error = some error →
    ∃ reason, w.reported.head? = some reason ∧ error = .initFailed reason
  early : w.toParent.Pairwise fun m m' => (∃ phases, m = .initReady phases) → reasonOf m' = none
  unreported : ⟨.settle .expectInitReady, true⟩ ∈ w.log → w.reported = []

theorem told_start (s : Setting) (dir stateFile : Bool) : Told (start s dir stateFile) where
  queued := fun _ => rfl
  answered := nofun
  early := .nil
  unreported := by simp [start]

section told
variable {s : Setting} {w w' : World} {who : Who} {op : Op} {rest : List Op} {ok : Bool}
  {put : Option Stage} {fault : Option Error}

theorem reported_snoc {e : Entry Op} (h : w'.log = w.log ++ [e]) :
    w'.reported = w.reported ++ (reportOf e).toList := by
  rw [World.reported, h, List.filterMap_append]
  cases he : reportOf e <;> simp [World.reported, he]

theorem reportOf_failed (op : Op) : reportOf ⟨op, false⟩ = none := by
  unfold reportOf
  split
  next h => cases h
  next => rfl

/-- Only a child that sends its error reports. -/
theorem reportOf_eq_some {reason : String} (h : reportOf ⟨op, ok⟩ = some reason) :
    op = .failing (.sendFailed reason) ∧ ok = true := by
  unfold reportOf at h
  split at h
  next hop hok =>
    obtain rfl := Option.some.inj h
    exact ⟨hop, hok⟩
  next => cases h

theorem reportOf_sends {m : Message} (h : SendsParent s op m) :
    reportOf ⟨op, true⟩ = reasonOf m := by
  cases h <;> rfl

theorem reportOf_quiet (h : ∀ m, ¬SendsParent s op m) (ok : Bool) : reportOf ⟨op, ok⟩ = none := by
  rw [Option.eq_none_iff_forall_ne_some]
  intro reason hreport
  obtain ⟨rfl, -⟩ := reportOf_eq_some hreport
  exact h _ (.failed reason)

/-- What a step that succeeds leaves in the runtime's queue. -/
inductive Passed (before after : List Message) (op : Op) : Prop
  | kept (hqueue : after = before) (hreport : reportOf ⟨op, true⟩ = none)
      (hop : op ≠ .settle .expectInitReady)
  | sent {m : Message} (hqueue : after = before ++ [m])
      (hreport : reportOf ⟨op, true⟩ = reasonOf m) (hop : op ≠ .settle .expectInitReady)
  | read {m : Message} (hqueue : before = m :: after)
      (hreport : reportOf ⟨op, true⟩ = none) (hreason : reasonOf m = none)
      (hop : op = .settle .expectInitReady → ∃ phases, m = .initReady phases)

theorem Effect.passed (h : Effect s w who op w') : Passed w.toParent w'.toParent op := by
  cases h with
  | quiet hquiet =>
      refine .kept rfl (reportOf_quiet (fun m (hsends : SendsParent s op m) => ?_) true) ?_
      · rw [special_of_sends (.inl hsends)] at hquiet
        cases hquiet
      · rintro rfl
        cases hquiet
  | recvRequest hop hqueue =>
      rcases hop with rfl | rfl <;> exact .read hqueue rfl rfl nofun
  | recvInitPid hop hqueue =>
      rcases hop with rfl | rfl <;> exact .read hqueue rfl rfl nofun
  | sendToChild hsends => cases hsends <;> exact .kept rfl rfl nofun
  | sendToParent hsends =>
      refine .sent rfl (reportOf_sends hsends) ?_
      rintro rfl
      cases hsends
  | expectFromParent hexpects => cases hexpects <;> exact .kept rfl rfl nofun
  | expectInitReady hqueue hwant =>
      obtain ⟨phases, rfl⟩ := of_matches_initReady hwant
      exact .read hqueue rfl rfl fun _ => ⟨phases, rfl⟩
  | _ => exact .kept rfl rfl nofun

/-- A step of the runtime's that fails has read a report, where nothing else troubles it. -/
theorem Attempt.answers (h : Attempt s w w' .parent op rest false put)
    (hact : act s w .parent none = some w') (htrouble : w.Untroubled s)
    (hown : op.onFailure.isSome = true) :
    ∃ reason later, w.toParent = .failed reason :: later ∧
      w'.error = some (.initFailed reason) := by
  simp only [act, h.ops] at hact
  simp only [World.Untroubled, h.ops] at htrouble
  split at hact
  next => cases hact
  next next hdone _ =>
    cases hact
    have hlog := h.log
    rw [record_log, (perform_done hdone).log] at hlog
    simp at hlog
  next error next hfailed _ =>
    cases hact
    rw [hfailed] at htrouble
    obtain ⟨hreceives, hreport⟩ := htrouble
    cases hqueue : w.toParent with
    | nil => simp [hqueue] at hreport
    | cons m later =>
        cases m with
        | failed reason =>
            refine ⟨reason, later, rfl, ?_⟩
            obtain ⟨cleanup, hcleanup⟩ := Option.isSome_iff_exists.mp hown
            rw [fail_error hcleanup]
            have hpopped : (w.setOps .parent rest).toParent = .failed reason :: later := hqueue
            unfold receives at hreceives
            split at hreceives
            next =>
              simp only [perform, performPrepare, recvInitPid, hpopped, Outcome.failed.injEq]
                at hfailed
              rw [hfailed.1]
            next =>
              simp only [perform, performMapping, recvInitPid, hpopped, Outcome.failed.injEq]
                at hfailed
              rw [hfailed.1]
            next =>
              simp only [perform, performSettle, expectFromChild, hpopped, expect,
                Outcome.failed.injEq] at hfailed
              rw [hfailed.1]
            next => cases hcleanup
            next => cases hcleanup
            next => cases hreceives
        | _ => simp [hqueue, reasonOf] at hreport
  next heq => cases heq

/-- A step that fails sends nothing. -/
theorem Carries.unsent (h : Carries s w w' op false) : w'.toParent = w.toParent ∨
    op.Receives ∧ ∃ m, w.toParent = m :: w'.toParent := by
  cases h with
  | still hparent => exact .inl hparent
  | reported hsends hok => cases hok
  | ordered hsends hok => cases hok
  | received hop hparent => exact .inr ⟨hop, _, hparent⟩
  | obeyed hop hparent => exact .inl hparent

theorem Told.done (hw : Told w) (hinv : InOrder s w) (hpassed : Passed w.toParent w'.toParent op)
    (hlog : w'.log = w.log ++ [⟨op, true⟩]) (herror : w'.error = w.error)
    (hready : op = .settle .expectInitReady → w.error = none)
    (hsilent : (reportOf ⟨op, true⟩).isSome = true → ⟨.init .sendInitReady, true⟩ ∉ w.log) :
    Told w' := by
  have hreported := reported_snoc hlog
  constructor
  case queued =>
    intro hnone
    rw [hreported, hw.queued (herror ▸ hnone)]
    cases hpassed with
    | kept hqueue hreport => simp [hqueue, hreport]
    | sent hqueue hreport =>
        rw [hqueue, List.filterMap_append, hreport]
        rfl
    | read hqueue hreport hreason => simp [hqueue, hreport, hreason]
  case answered =>
    intro error hsome
    obtain ⟨reason, hhead, heq⟩ := hw.answered error (herror ▸ hsome)
    exact ⟨reason, by rw [hreported, List.head?_append, hhead]; rfl, heq⟩
  case early =>
    cases hpassed with
    | kept hqueue => exact hqueue ▸ hw.early
    | @sent m hqueue hreport =>
        rw [hqueue, List.pairwise_append]
        refine ⟨hw.early, List.pairwise_singleton _ _, ?_⟩
        rintro _ hmem m' hm' ⟨phases, rfl⟩
        obtain rfl := List.mem_singleton.mp hm'
        by_contra hsome
        rw [← hreport] at hsome
        exact hsilent (Option.isSome_iff_ne_none.mpr hsome) (hinv.ready _ hmem)
    | read hqueue =>
        have hearly := hw.early
        rw [hqueue] at hearly
        exact (List.pairwise_cons.mp hearly).2
  case unreported =>
    intro hmem
    rw [hlog] at hmem
    have hbefore : w.reported = [] := by
      rcases List.mem_append.mp hmem with hmem | hmem
      · exact hw.unreported hmem
      · obtain rfl : op = .settle .expectInitReady := by simpa [eq_comm] using hmem
        cases hpassed with
        | kept hqueue hreport hop => exact absurd rfl hop
        | sent hqueue hreport hop => exact absurd rfl hop
        | read hqueue hreport hreason hop =>
            have hearly := hw.early
            rw [hqueue] at hearly
            rw [hw.queued (hready rfl), hqueue, List.filterMap_eq_nil_iff]
            rintro m' hm'
            rcases List.mem_cons.mp hm' with rfl | hm'
            · exact hreason
            · exact (List.pairwise_cons.mp hearly).1 m' hm' (hop rfl)
    have hnow : reportOf ⟨op, true⟩ = none := by
      rcases List.mem_append.mp hmem with hmem | hmem
      · by_contra hsome
        exact hsilent (Option.isSome_iff_ne_none.mpr hsome) (hinv.afterReady.mem hmem rfl)
      · obtain rfl : op = .settle .expectInitReady := by simpa [eq_comm] using hmem
        rfl
    rw [hreported, hbefore, hnow]
    rfl

theorem Told.failed (hw : Told w) (hwhole : Whole s w) (h : Attempt s w w' who op rest false put)
    (hact : act s w who fault = some w') (hok : Undisturbed s w (.act who fault)) : Told w' := by
  have hreported : w'.reported = w.reported := by
    rw [reported_snoc h.log, reportOf_failed, Option.toList_none, List.append_nil]
  have hunreported : ⟨.settle .expectInitReady, true⟩ ∈ w'.log → w'.reported = [] := by
    intro hmem
    rw [h.log] at hmem
    rw [hreported]
    exact hw.unreported (by simpa using hmem)
  have hearly : w'.toParent.Pairwise
      fun m m' => (∃ phases, m = .initReady phases) → reasonOf m' = none := by
    have hbefore := hw.early
    rcases h.carries.unsent with hsame | ⟨-, m, hqueue⟩
    · exact hsame ▸ hbefore
    · rw [hqueue] at hbefore
      exact (List.pairwise_cons.mp hbefore).2
  obtain ⟨error, next, hfails, rfl⟩ := h.failed rfl
  cases hcleanup : op.onFailure with
  | none =>
      have herror := (@fail_none_parent _ _ _ _ _ _ error hfails hcleanup).2
      refine ⟨fun hnone => ?_, fun e he => ?_, hearly, hunreported⟩
      · rw [hreported, hw.queued (herror ▸ hnone)]
        rcases h.carries.unsent with hsame | ⟨hop, -⟩
        · rw [hsame]
        · rcases hop with rfl | rfl | rfl <;> cases hcleanup
      · rw [hreported]
        exact hw.answered e (herror ▸ he)
  | some cleanup =>
      obtain ⟨st, hstage, howner⟩ := onFailure_parental hcleanup
      obtain ⟨hwho, -⟩ := hwhole.inOrder.progress h.ops hstage
      obtain rfl : who = .parent := hwho.symm.trans howner
      have hnone : w.error = none := by
        by_contra hsome
        have hsome' : w.error.isSome := Option.isSome_iff_ne_none.mpr hsome
        exact hwhole.cleaning.not_parental hwhole.inOrder h.ops hsome' hstage howner
      obtain ⟨rfl, huntroubled⟩ := hok.2.1 rfl hnone
      obtain ⟨reason, later, hqueue, hnow⟩ :=
        h.answers hact huntroubled (by rw [hcleanup]; rfl)
      refine ⟨fun hnone' => ?_, fun e he => ⟨reason, ?_, ?_⟩, hearly, hunreported⟩
      · rw [hnow] at hnone'
        cases hnone'
      · rw [hreported, hw.queued hnone, hqueue]
        rfl
      · exact (Option.some.inj (hnow.symm.trans he)).symm

theorem Told.step {event : Event} (hw : Told w) (hwhole : Whole s w) (hok : Undisturbed s w event)
    (hstep : Protocol.step s w event = some w') : Told w' := by
  cases event <;> simp only [Protocol.step, Option.ite_none_right_eq_some] at hstep
  case act who fault =>
    obtain ⟨op, rest, ok, put, h⟩ := act_attempt hwhole.inOrder hstep.2
    cases ok with
    | false => exact hw.failed hwhole h hstep.2 hok
    | true =>
        obtain ⟨next, hdone, rfl⟩ := h.done rfl
        have heffect := perform_done hdone
        refine hw.done hwhole.inOrder heffect.passed h.log heffect.error ?_ ?_
        · rintro rfl
          by_contra hsome
          have hsome' : w.error.isSome := Option.isSome_iff_ne_none.mpr hsome
          exact hwhole.cleaning.not_parental hwhole.inOrder h.ops hsome' rfl rfl
        · intro hreport
          obtain ⟨reason, hreason⟩ := Option.isSome_iff_exists.mp hreport
          obtain ⟨rfl, -⟩ := reportOf_eq_some hreason
          exact hok.2.2 (by rw [h.ops]; rfl)
  case die who =>
    obtain rfl := Option.some.inj hstep.2
    exact ⟨hw.queued, hw.answered, hw.early, hw.unreported⟩
  case kill who =>
    obtain rfl := Option.some.inj hstep.2
    exact ⟨hw.queued, hw.answered, hw.early, hw.unreported⟩
  case reader =>
    obtain rfl := Option.some.inj hstep
    refine @Told.done s w _ .readerOpens hw hwhole.inOrder (.kept rfl rfl (by simp)) rfl rfl ?_ ?_
    · intro hop
      cases hop
    · intro hreport
      cases hreport

/-- A create that returns has failed with the first report there is. -/
theorem Told.returned {reason : String} {result : Except Error Unit} (hw : Told w)
    (hwhole : Whole s w) (hreport : w.reported.head? = some reason)
    (hresult : w.returned = some result) : result = .error (.initFailed reason) := by
  cases result with
  | ok u =>
      have hready : ⟨.settle .expectInitReady, true⟩ ∈ w.log :=
        hwhole.inOrder.settled (hwhole.closed hresult) (by simp [beforeClose])
      rw [hw.unreported hready] at hreport
      cases hreport
  | error e =>
      obtain ⟨reason', hhead, rfl⟩ := hw.answered e (returned_error hresult).2
      rw [Option.some.inj (hreport.symm.trans hhead)]

end told

/-! ## Every run -/

instance (s : Setting) (w : World) : Decidable (w.Untroubled s) := by
  unfold World.Untroubled
  split
  · infer_instance
  · split <;> infer_instance

instance (s : Setting) (w : World) (event : Event) : Decidable (Undisturbed s w event) := by
  unfold Undisturbed
  split <;> infer_instance

section run
variable {serde : Serde} {s : Setting} {w w' : World} {dir stateFile : Bool} {events : List Event}

/-- Where the state is on disk there is nobody to report. -/
theorem TurnedAway.unreported {event : Event} (h : TurnedAway w) (hnone : w.reported = [])
    (hstep : Protocol.step s w event = some w') : w'.reported = [] := by
  cases event <;> simp only [Protocol.step, Option.ite_none_right_eq_some] at hstep
  case act who fault =>
    obtain rfl := h.running hstep.1
    rcases h.parent with hnil | ⟨rest, hops⟩
    · simp [Protocol.act, hnil] at hstep
    · obtain ⟨op, rest', hops', hcases⟩ := act_cases hstep.2
      obtain rfl : .prepare .checkState = op := (List.cons.inj (hops.symm.trans hops')).1
      rcases hcases with ⟨next, hdone, rfl⟩ | ⟨error, next, hfails, rfl⟩
      · have hlog : (next.record (.prepare .checkState) true).log =
            w.log ++ [⟨.prepare .checkState, true⟩] := by
          rw [record_log, (perform_done hdone).log]
          rfl
        rw [reported_snoc hlog, hnone]
        rfl
      · have hlog : ((next.record (.prepare .checkState) false).fail (.prepare .checkState)
            error).log = w.log ++ [⟨.prepare .checkState, false⟩] := by
          rw [fail_log, record_log, hfails.read.log]
          rfl
        rw [reported_snoc hlog, hnone]
        rfl
  case die who => exact Option.some.inj hstep.2 ▸ hnone
  case kill who => exact Option.some.inj hstep.2 ▸ hnone
  case reader =>
    obtain rfl := Option.some.inj hstep
    rw [@reported_snoc w _ ⟨.readerOpens, true⟩ rfl, hnone]
    rfl

theorem reported_is_returned {reason : String} {result : Except Error Unit}
    (hrun : Transition.run (step s) (start s dir stateFile) events = some w)
    (hok : Transition.Along (step s) (Undisturbed s) (start s dir stateFile) events)
    (hreport : w.reported.head? = some reason) (hresult : w.returned = some result) :
    result = .error (.initFailed reason) := by
  cases stateFile with
  | true =>
      have haway : TurnedAway w ∧ w.reported = [] :=
        @Transition.run_invariant _ _ (step s) (fun w => TurnedAway w ∧ w.reported = [])
          (fun _ _ _ h hstep => ⟨h.1.step hstep, h.1.unreported h.2 hstep⟩) _ _ _
          ⟨turnedAway_start s dir, rfl⟩ hrun
      rw [haway.2] at hreport
      cases hreport
  | false =>
      have hboth : Whole s w ∧ Told w :=
        @Transition.run_invariant_along _ _ _ (fun w => Whole s w ∧ Told w) (Undisturbed s)
          (fun _ _ _ h hevent hstep => ⟨h.1.step hstep, h.2.step h.1 hevent hstep⟩) _ _ _
          ⟨whole_start s dir, told_start s dir false⟩ hrun hok
      exact hboth.2.returned hboth.1 hreport hresult

/-- What is sent is received exactly where it fits. Where all that a create reads
does, and it meets no other error, it fails with the first report. -/
theorem intact_iff_fits (serde : Serde) :
    (∀ events w, Transition.run (wireStep serde) pair events = some w →
      ∀ (i : Nat) (m : Message) (r : Except Error Message),
        w.sent[i]? = some m → w.received[i]? = some r →
          (r = .ok m ↔ m.toVec.size ≤ MAX_MESSAGE)) ∧
    ∀ s dir stateFile events w,
      Transition.run (wiredStep serde s) (start s dir stateFile) events = some w →
      Transition.Along (wiredStep serde s) (Undisturbed s) (start s dir stateFile) events →
      ∀ reason result, w.reported.head? = some reason → w.returned = some result →
        result = .error (.initFailed reason) := by
  constructor
  · intro events w hrun i m r hsent hreceived
    exact received_iff hrun hsent hreceived
  · intro s dir stateFile events w hrun hok reason result hreport hresult
    obtain ⟨hplain, hsame⟩ := Transition.along_congr (fun _ _ h => wiredStep_eq h) hok
    exact reported_is_returned (hsame ▸ hrun) hplain hreport hresult

end run

/-! ## A mount that the kernel refuses -/

/-- A file system in memory, with one option that is not the runtime's to know. -/
def dataMount (option : String) : Mount where
  destination := "/data"
  typ := some "tmpfs"
  source := some "tmpfs"
  options := some [option]

def mountSpec (option : String) : Spec :=
  { Placement.emptySpec with
    root := some { path := "rootfs", readonly := none }
    mounts := some [dataMount option] }

/-- A container with a mount namespace of its own. -/
def mountSetting (option : String) : Setting :=
  { Placement.userSetting with
    plan := { Placement.userPlan with
      bundle := { dir := "/bundle", spec := mountSpec option }
      unshareFlags := CLONE_NEWNS } }

def mountError (option : String) : Error :=
  .nix ("mount tmpfs type=tmpfs at /data flags=" ++ Mounts.debugFlags 0 ++ " data=" ++
    Text.debugText option)

/-- A host whose kernel refuses every mount. -/
def refusing : Mounts.Host where
  unifiedCgroup := true
  leads := fun k path => k.locate path
  isFile := fun _ => false
  pathExists := fun _ => true
  linkExists := fun _ => false
  fails := fun _ => false
  refuses := fun _ => true

/-- An option that is not in the table is data. -/
theorem parseOptions_data {option : String} (h : option ∉ Mounts.OPTIONS.map Prod.fst) :
    Mounts.parseOptions [option] = { flags := 0, data := option } := by
  have hnone : Mounts.OPTIONS.lookup option = none := by
    rw [List.lookup_eq_none_iff]
    intro named hnamed
    rw [bne_iff_ne]
    rintro rfl
    exact h (List.mem_map_of_mem hnamed)
  simp only [Mounts.parseOptions, List.foldl_cons, List.foldl_nil, Mounts.parseStep, hnone]
  rfl

theorem mounts_refused {option : String} (h : option ∉ Mounts.OPTIONS.map Prod.fst)
    (hsome : option ≠ "") (k : MountTable.Kernel) :
    Mounts.apply refusing "/bundle/rootfs" ((mountSpec option).mounts.getD []) k =
      .error (mountError option) := by
  have hparsed := parseOptions_data h
  simp [mountSpec, dataMount, mountError, Mounts.apply, Mounts.applyOne, Mounts.mountCall,
    Mounts.prepareTarget, Mounts.Host.step, Mounts.Host.mount, refusing, hparsed, hsome,
    Mounts.effectiveFstype, called, bind, Except.bind]

open Placement in
/-- Init's mount is refused and it reports that. -/
def reportRun (error : Error) : List Event :=
  acts .parent 14 ++ acts .intermediate 5 ++ acts .parent 4 ++ acts .init 3 ++
    .act .init (some error) :: acts .init 2

/-- No size, but short. -/
def shortOption : String := "size=none"

def answeredRun : List Event :=
  reportRun (mountError shortOption) ++ Placement.acts .parent 7

theorem answeredRun_enabled : (Transition.run (step (mountSetting shortOption))
    (start (mountSetting shortOption) false false) answeredRun).isSome = true := by rfl

theorem intact_iff_fits_answered :
    recv exactSerde (Message.failed (mountError shortOption).text).toVec =
        .ok (.failed (mountError shortOption).text) ∧
      ∃ w, Transition.run (wiredStep exactSerde (mountSetting shortOption))
          (start (mountSetting shortOption) false false) answeredRun = some w ∧
        w.returned = some (.error (.initFailed (mountError shortOption).text)) := by
  have hplain : Transition.Along (step (mountSetting shortOption))
      (Undisturbed (mountSetting shortOption)) (start (mountSetting shortOption) false false)
      answeredRun := by decide +kernel
  obtain ⟨hok, hsame⟩ :=
    Transition.along_congr (fun _ _ h => (@wiredStep_eq exactSerde _ _ _ h).symm) hplain
  have hrun := hsame.symm.trans (Option.some_get answeredRun_enabled).symm
  have hreport : (Option.get _ answeredRun_enabled).reported.head? =
      some (mountError shortOption).text := by decide +kernel
  have hreturned : (Option.get _ answeredRun_enabled).returned.isSome = true := by rfl
  obtain ⟨result, hresult⟩ := Option.isSome_iff_exists.mp hreturned
  have hfails := (intact_iff_fits exactSerde).2 _ _ _ _ _ hrun hok _ _ hreport hresult
  have hfits : (Message.failed (mountError shortOption).text).toVec.size ≤ MAX_MESSAGE := by
    decide +kernel
  refine ⟨?_, _, hrun, hfails ▸ hresult⟩
  exact ((intact_iff_fits exactSerde).1 [.send _ false, .recv] _ rfl 0 _ _ rfl rfl).mpr hfits

/-- An option of more characters than the buffer has bytes. -/
def longOption : String := String.ofList (List.replicate (MAX_MESSAGE + 1) 'x')

theorem longOption_length : longOption.toList.length = MAX_MESSAGE + 1 := by
  rw [longOption, String.toList_ofList, List.length_replicate]

attribute [irreducible] longOption

theorem longOption_data : longOption ∉ Mounts.OPTIONS.map Prod.fst ∧ longOption ≠ "" := by
  have hshort : ∀ name ∈ "" :: Mounts.OPTIONS.map Prod.fst, name.toList.length ≤ MAX_MESSAGE := by
    decide
  have hlong : longOption ∉ "" :: Mounts.OPTIONS.map Prod.fst := by
    intro hmem
    have hle := hshort longOption hmem
    rw [longOption_length] at hle
    omega
  simpa [and_comm] using hlong

def longSetting : Setting := mountSetting longOption

theorem reportRun_enabled (error : Error) : (Transition.run (step longSetting)
    (start longSetting false false) (reportRun error)).isSome = true := by rfl

def reportWorld (error : Error) : World := Option.get _ (reportRun_enabled error)

theorem lostRun_enabled (error : Error) : (Transition.run (step longSetting)
    ((reportWorld error).setQueue .parent [])
    (.act .parent (some .json) :: Placement.acts .parent 6)).isSome = true := by rfl

def lostWorld (error : Error) : World := Option.get _ (lostRun_enabled error)

theorem lostWorld_returned (error : Error) :
    (lostWorld error).returned = some (.error .json) := by rfl

theorem reportWorld_reported (error : Error) : (reportWorld error).reported = [error.text] := by rfl

/-- Up to the report all that is read fits. -/
theorem reportRun_undisturbed : Transition.Along (step longSetting) (Undisturbed longSetting)
    (start longSetting false false) (reportRun (mountError longOption)) := by decide +kernel

theorem reportRun_wired (serde : Serde) :
    Transition.run (wiredStep serde longSetting) (start longSetting false false)
      (reportRun (mountError longOption)) = some (reportWorld (mountError longOption)) := by
  obtain ⟨-, hsame⟩ := Transition.along_congr
    (fun _ _ h => (@wiredStep_eq serde _ _ _ h).symm) reportRun_undisturbed
  exact hsame.symm.trans (Option.some_get (reportRun_enabled _)).symm

/-- A report that is too long is lost, and create fails with another error. -/
theorem long_report_lost (serde : Serde) {error : Error}
    (hlong : MAX_MESSAGE < (Message.failed error.text).toVec.size) :
    Transition.run (wiredStep serde longSetting) (reportWorld error) (Placement.acts .parent 7) =
      some (lostWorld error) := by
  have harriving : (reportWorld error).arriving .parent = [.failed error.text] := by rfl
  have hread : wiredStep serde longSetting (reportWorld error) (.act .parent none) =
      step longSetting ((reportWorld error).setQueue .parent []) (.act .parent (some .json)) := by
    simp only [wiredStep, harriving, recv_cut hlong, Option.getD_none]
  show (wiredStep serde longSetting (reportWorld error) (.act .parent none)).bind
    (fun next => Transition.run (wiredStep serde longSetting) next (Placement.acts .parent 6)) =
      some (lostWorld error)
  rw [hread]
  rfl

theorem length_le_back (a b : String) : b.toList.length ≤ (a ++ b).toList.length := by
  rw [String.toList_append, List.length_append]
  exact Nat.le_add_left _ _

theorem mountError_size (option : String) :
    option.toList.length < (Message.failed (mountError option).text).toVec.size := by
  have hquoted : option.toList.length ≤ (Text.debugText option).toList.length :=
    Text.length_le_debugText option
  have htext : (Text.debugText option).toList.length ≤ (mountError option).text.toList.length :=
    length_le_back _ _
  have hsize := failed_size (mountError option).text
  generalize (Message.failed (mountError option).text).toVec.size = size at hsize ⊢
  generalize (mountError option).text.toList.length = length at hsize htext
  omega

theorem mountError_long : MAX_MESSAGE < (Message.failed (mountError longOption).text).toVec.size := by
  refine Nat.lt_trans ?_ (mountError_size longOption)
  rw [longOption_length]
  exact Nat.lt_succ_self _

/-- The kernel refuses the mount, the report of it is sent, and neither received nor what
create fails with. -/
theorem longOption_report_lost :
    (∀ k, Mounts.apply refusing "/bundle/rootfs" ((mountSpec longOption).mounts.getD []) k =
      .error (mountError longOption)) ∧
    (∃ w, Transition.run (wireStep exactSerde) pair
        [.send (.failed (mountError longOption).text) false, .recv] = some w ∧
      w.sent = [.failed (mountError longOption).text] ∧ w.received = [.error .json]) ∧
    ∃ w w', Transition.run (wiredStep exactSerde (mountSetting longOption))
        (start (mountSetting longOption) false false) (reportRun (mountError longOption)) =
          some w ∧
      w.reported = [(mountError longOption).text] ∧
      Transition.run (wiredStep exactSerde (mountSetting longOption)) w
        (Placement.acts .parent 7) = some w' ∧
      w'.returned = some (.error .json) := by
  refine ⟨mounts_refused longOption_data.1 longOption_data.2, ?_, ?_⟩
  · refine ⟨_, rfl, rfl, ?_⟩
    exact congrArg (fun r => [r]) (recv_cut mountError_long)
  · exact ⟨_, _, reportRun_wired exactSerde, reportWorld_reported _,
      long_report_lost exactSerde mountError_long, lostWorld_returned _⟩

end Mars.Protocol
