import Mars.Container.Ordering

/-! # The children of a create

A child that is running has steps left, and the runtime's end of the socket
closes with the runtime's own copy of it.
-/

namespace Mars.Protocol
open Spec Namespace Hooks Sync History

/-! ## Parts of an updated world -/

section parts
variable {w : World} {who other child : Who} {f : Party → Party} {ops : List Op} {op : Op}
  {error : Error}

theorem update_party :
    (w.update who f).party other = if other = who then f (w.party who) else w.party other := by
  by_cases hother : other = who
  · subst hother
    simp
  · simp [update_party_other w who other f hother, hother]

/-- A failing party keeps everything but its program. -/
theorem fail_party : ∃ ops, (w.fail op error).party other = { w.party other with ops := ops } := by
  have hsame : ∃ ops, w.party other = { w.party other with ops := ops } :=
    ⟨(w.party other).ops, rfl⟩
  have hset : ∀ who ops, ∃ ops', (w.setOps who ops).party other =
      { w.party other with ops := ops' } := by
    intro who ops
    rw [World.setOps, update_party]
    split
    next heq => exact ⟨ops, by rw [heq]⟩
    next => exact hsame
  cases op with
  | prepare op => exact hset _ _
  | mapping op => exact hset _ _
  | settle op => exact hset _ _
  | intermediate op => exact hset _ _
  | init op => exact hset _ _
  | _ => exact hsame

variable (w who other ops op error)

@[simp] theorem fail_life : ((w.fail op error).party other).life = (w.party other).life := by
  obtain ⟨ops, h⟩ := @fail_party w other op error
  rw [h]

@[simp] theorem fail_keepsParent :
    ((w.fail op error).party other).keepsParent = (w.party other).keepsParent := by
  obtain ⟨ops, h⟩ := @fail_party w other op error
  rw [h]

@[simp] theorem fail_killed :
    ((w.fail op error).party other).killed = (w.party other).killed := by
  obtain ⟨ops, h⟩ := @fail_party w other op error
  rw [h]

@[simp] theorem setOps_life :
    ((w.setOps who ops).party other).life = (w.party other).life := by
  rw [World.setOps, update_party]
  split <;> simp_all

@[simp] theorem setOps_keepsParent :
    ((w.setOps who ops).party other).keepsParent = (w.party other).keepsParent := by
  rw [World.setOps, update_party]
  split <;> simp_all

@[simp] theorem setOps_killed :
    ((w.setOps who ops).party other).killed = (w.party other).killed := by
  rw [World.setOps, update_party]
  split <;> simp_all

end parts

/-! ## Whom a step changes -/

/-- The steps that change a party in anything but its having taken them. -/
def touches : Who → Op → Bool
  | .parent, .prepare .pair => true
  | .parent, .prepare .dropChild => true
  | .parent, .prepare .recv => true
  | .parent, .mapping .recv => true
  | .parent, .settle .close => true
  | .parent, .cleanup .closeChannel => true
  | .intermediate, .prepare .fork => true
  | .intermediate, .intermediate .dropParent => true
  | .intermediate, .intermediate .exit => true
  | .init, .intermediate .fork => true
  | .init, .init .execve => true
  | .init, .cleanup .teardownKill => true
  | _, .failing .exit => true
  | _, _ => false

theorem Effect.untouched {s : Setting} {w next : World} {who other : Who} {op : Op}
    (h : Effect s w who op next) (htouch : touches other op = false) :
    next.party other = w.party other := by
  cases h with
  | recvRequest hop =>
      cases other with
      | parent => rcases hop with rfl | rfl <;> cases htouch
      | _ => rfl
  | recvInitPid hop =>
      cases other with
      | parent => rcases hop with rfl | rfl <;> cases htouch
      | _ => rfl
  | exitFailing => cases other <;> cases htouch
  | _ =>
      first
      | rfl
      | cases other <;> first | rfl | cases htouch

/-! ## The children -/

/-- The last step of a child's program. -/
def Op.Final (op : Op) : Prop :=
  op = .intermediate .exit ∨ op = .init .execve ∨ op = .failing .exit

/-- A child keeps its copy of the runtime's end only until its first step. -/
def Dropping (p : Party) : Prop :=
  p.keepsParent = true → p.life = .running ∧ p.ops.head? = some (.intermediate .dropParent)

/-- A child that is running has steps left, all its own, and no copy of the
runtime's end of the socket once it has taken its first. -/
structure Children (w : World) : Prop where
  dropping : Dropping (w.party .intermediate)
  closed : (w.party .init).keepsParent = false
  ending : ∀ who, who ≠ .parent → (w.party who).life = .running →
    (∃ x, (w.party who).ops.getLast? = some x ∧ x.Final) ∨ ⟨.init .execve, true⟩ ∈ w.log
  own : ∀ who, who ≠ .parent → ∀ op ∈ (w.party who).ops, op.Idle → ∃ f, op = .failing f
  met : ⟨.init .meetReader, true⟩ ∈ w.log → w.reader = true

theorem children_start (s : Setting) (dir stateFile : Bool) :
    Children (start s dir stateFile) where
  dropping := nofun
  closed := rfl
  ending := by
    intro who hwho hlife
    cases who with
    | parent => exact absurd rfl hwho
    | intermediate => cases hlife
    | init => cases hlife
  own := by
    intro who hwho op hop
    cases who with
    | parent => exact absurd rfl hwho
    | intermediate => cases hop
    | init => cases hop
  met := by simp [start]

section children
variable {s : Setting} {w w' next : World} {who : Who} {op : Op} {rest : List Op}

theorem stageOne_getLast (plan : Plan) :
    ((stageOne plan).map Op.intermediate).getLast? = some (.intermediate .exit) := by
  simp [stageOne, List.getLast?_cons]

theorem containerInit_getLast (plan : Plan) :
    ((containerInit plan).map Op.init).getLast? = some (.init .execve) := by
  simp [containerInit, parkAndExec, List.getLast?_cons]

theorem touches_intermediate (h : touches .intermediate op = true) :
    op = .prepare .fork ∨ op = .intermediate .dropParent ∨ op = .intermediate .exit ∨
      op = .failing .exit := by
  unfold touches at h
  split at h <;> simp_all

theorem touches_init (h : touches .init op = true) :
    op = .intermediate .fork ∨ op = .init .execve ∨ op = .cleanup .teardownKill ∨
      op = .failing .exit := by
  unfold touches at h
  split at h <;> simp_all

/-- The step that is about to be taken does not count as one that is left. -/
theorem Children.popped (h : Children w) (hops : (w.party who).ops = op :: rest)
    (hop : op ≠ .intermediate .dropParent) :
    Dropping ((w.setOps who rest).party .intermediate) := by
  intro hkeeps
  rw [setOps_keepsParent] at hkeeps
  rw [setOps_life]
  have hhead := h.dropping hkeeps
  by_cases hwho : .intermediate = who
  · subst hwho
    rw [hops] at hhead
    exact absurd (Option.some.inj hhead.2) hop
  · rw [setOps_party_other w who _ rest hwho]
    exact hhead

theorem Children.dropping_done (h : Children w) (hops : (w.party who).ops = op :: rest)
    (hdone : perform s (w.setOps who rest) who op = .done next) :
    Dropping (next.party .intermediate) := by
  cases htouch : touches .intermediate op with
  | false =>
      rw [(perform_done hdone).untouched htouch]
      apply h.popped hops
      rintro rfl
      cases htouch
  | true =>
      intro hkeeps
      rcases touches_intermediate htouch with rfl | rfl | rfl | rfl
      · cases hdone
        rw [World.forked, update_party_self]
        exact ⟨rfl, rfl⟩
      · cases hdone
        simp at hkeeps
      · cases hdone
        simp [World.leave] at hkeeps
      · cases hdone
        rw [World.leave, update_party] at hkeeps ⊢
        split at hkeeps
        next => cases hkeeps
        next hne =>
          rw [if_neg hne]
          exact h.popped hops (by simp) hkeeps

theorem Children.closed_done (h : Children w) (hinv : InOrder s w)
    (hops : (w.party who).ops = op :: rest)
    (hdone : perform s (w.setOps who rest) who op = .done next) :
    (next.party .init).keepsParent = false := by
  cases htouch : touches .init op with
  | false =>
      rw [(perform_done hdone).untouched htouch, setOps_keepsParent]
      exact h.closed
  | true =>
      rcases touches_init htouch with rfl | rfl | rfl | rfl
      · obtain ⟨rfl, -⟩ := hinv.progress hops rfl
        cases hdone
        rw [World.forked, update_party_self]
        rw [setOps_keepsParent, Bool.eq_false_iff]
        intro hkeeps
        have hhead := (h.dropping hkeeps).2
        rw [show (w.party .intermediate).ops = _ from hops] at hhead
        simp at hhead
      · cases hdone
        simp
      · simp only [perform, performCleanup] at hdone
        split at hdone <;> cases hdone <;> simp [h.closed]
      · cases hdone
        rw [World.leave, update_party]
        split
        next => rfl
        next => simp [h.closed]

/-- What was left of the program, less the step that is taken. -/
theorem Children.ending_popped (h : Children w) (hops : (w.party who).ops = op :: rest)
    {other : Who} (hother : other ≠ .parent) (hlife : (w.party other).life = .running) :
    (∃ x, ((w.setOps who rest).party other).ops.getLast? = some x ∧ x.Final) ∨
      (other = who ∧ op.Final) ∨ ⟨.init .execve, true⟩ ∈ w.log := by
  rcases h.ending other hother hlife with ⟨x, hlast, hfinal⟩ | hexecve
  · by_cases hwho : other = who
    · subst hwho
      rw [hops, List.getLast?_cons] at hlast
      rw [setOps_ops_self]
      cases hrest : rest.getLast? with
      | none =>
          obtain rfl : op = x := by simpa [hrest] using hlast
          exact Or.inr (Or.inl ⟨rfl, hfinal⟩)
      | some y =>
          rw [hrest] at hlast
          exact Or.inl ⟨x, by simpa using hlast, hfinal⟩
    · rw [setOps_party_other w who _ rest hwho]
      exact Or.inl ⟨x, hlast, hfinal⟩
  · exact Or.inr (Or.inr hexecve)

/-- Whoever performs its last step is gone or has executed the program. -/
theorem Children.final_done (hinv : InOrder s w) (hops : (w.party who).ops = op :: rest)
    (hfinal : op.Final) (hdone : perform s (w.setOps who rest) who op = .done next) :
    (next.party who).life = .exited ∨ op = .init .execve := by
  rcases hfinal with rfl | rfl | rfl
  · obtain ⟨rfl, -⟩ := hinv.progress hops rfl
    cases hdone
    exact Or.inl (by simp [World.leave, Stage.owner])
  · exact Or.inr rfl
  · cases hdone
    exact Or.inl (by simp [World.leave])

theorem Children.ending_done (h : Children w) (hinv : InOrder s w)
    (hops : (w.party who).ops = op :: rest)
    (hdone : perform s (w.setOps who rest) who op = .done next) {other : Who}
    (hother : other ≠ .parent) (hlife : (next.party other).life = .running) :
    (∃ x, (next.party other).ops.getLast? = some x ∧ x.Final) ∨
      ⟨.init .execve, true⟩ ∈ w.log ++ [⟨op, true⟩] := by
  have hkeep : (w.party other).life = .running →
      (next.party other).ops = ((w.setOps who rest).party other).ops →
      (∃ x, (next.party other).ops.getLast? = some x ∧ x.Final) ∨
        ⟨.init .execve, true⟩ ∈ w.log ++ [⟨op, true⟩] := by
    intro hwas hsame
    rw [hsame]
    rcases h.ending_popped hops hother hwas with hleft | ⟨rfl, hfinal⟩ | hexecve
    · exact Or.inl hleft
    · rcases Children.final_done hinv hops hfinal hdone with hgone | rfl
      · rw [hgone] at hlife
        cases hlife
      · simp
    · exact Or.inr (List.mem_append_left _ hexecve)
  cases htouch : touches other op with
  | false =>
      have hsame := (perform_done hdone).untouched htouch
      rw [hsame, setOps_life] at hlife
      exact hkeep hlife (by rw [hsame])
  | true =>
      cases other with
      | parent => exact absurd rfl hother
      | intermediate =>
          rcases touches_intermediate htouch with rfl | rfl | rfl | rfl
          · cases hdone
            rw [forked_ops_self]
            exact Or.inl ⟨_, stageOne_getLast s.plan, Or.inl rfl⟩
          · cases hdone
            exact hkeep (by simpa using hlife) (update_ops _ _ _ _ fun _ => rfl)
          · cases hdone
            simp [World.leave] at hlife
          · cases hdone
            rw [World.leave, update_party] at hlife hkeep ⊢
            split at hlife
            next => cases hlife
            next hne => exact hkeep (by simpa using hlife) (by simp [hne])
      | init =>
          rcases touches_init htouch with rfl | rfl | rfl | rfl
          · cases hdone
            rw [forked_ops_self]
            exact Or.inl ⟨_, containerInit_getLast s.plan, Or.inr (Or.inl rfl)⟩
          · simp
          · simp only [perform, performCleanup] at hdone
            split at hdone <;> cases hdone
            · exact hkeep (by simpa using hlife) (update_ops _ _ _ _ fun _ => rfl)
            · exact hkeep (by simpa using hlife) rfl
          · cases hdone
            rw [World.leave, update_party] at hlife hkeep ⊢
            split at hlife
            next => cases hlife
            next hne => exact hkeep (by simpa using hlife) (by simp [hne])

theorem popped_subset (hops : (w.party who).ops = op :: rest) {other : Who} {x : Op}
    (hx : x ∈ ((w.setOps who rest).party other).ops) : x ∈ (w.party other).ops := by
  by_cases hwho : other = who
  · subst hwho
    rw [setOps_ops_self] at hx
    rw [hops]
    exact List.mem_cons_of_mem _ hx
  · rwa [setOps_party_other w who other rest hwho] at hx

theorem Children.own_done (h : Children w) (hinv : InOrder s w)
    (hops : (w.party who).ops = op :: rest)
    (hdone : perform s (w.setOps who rest) who op = .done next) :
    ∀ other, other ≠ .parent → ∀ x ∈ (next.party other).ops, x.Idle → ∃ f, x = .failing f := by
  intro other hother x hx hidle
  rcases (perform_done hdone).ops hinv.initPid other with hsame | hnil | ⟨st, -, hprogram⟩
  · rw [hsame] at hx
    exact h.own other hother x (popped_subset hops hx) hidle
  · simp [hnil] at hx
  · rw [hprogram] at hx
    exact absurd hidle ((apart_program s).idle x st hx)

theorem Children.done (h : Children w) (hinv : InOrder s w)
    (hops : (w.party who).ops = op :: rest)
    (hdone : perform s (w.setOps who rest) who op = .done next) :
    Children (next.record op true) where
  dropping := by
    rw [record_party]
    exact h.dropping_done hops hdone
  closed := by
    rw [record_party]
    exact h.closed_done hinv hops hdone
  ending := by
    intro other hother hlife
    rw [record_log, (perform_done hdone).log]
    exact h.ending_done hinv hops hdone hother hlife
  own := by
    rw [record_party]
    exact h.own_done hinv hops hdone
  met := by
    rw [record_log, (perform_done hdone).log]
    intro hmem
    show next.reader = true
    rw [(perform_done hdone).reader]
    rcases List.mem_append.mp hmem with hmem | hmem
    · exact h.met hmem
    · obtain rfl : .init .meetReader = op := by simpa using hmem
      exact (perform_done hdone).found

theorem Fails.ne_dropParent (h : Fails s w who op rest next) : op ≠ .intermediate .dropParent := by
  rintro rfl
  rcases h.able with hable | ⟨error, herror⟩
  · cases hable
  · cases herror

theorem Fails.ne_exit (h : Fails s w who op rest next) : op ≠ .failing .exit := by
  rintro rfl
  rcases h.able with hable | ⟨error, herror⟩
  · cases hable
  · cases herror

/-- A failure changes nobody but whose step it was. -/
theorem Fails.party_other {error : Error} (h : Fails s w who op rest next) (hinv : InOrder s w)
    (hops : (w.party who).ops = op :: rest) {other : Who} (hother : other ≠ who) :
    ((next.record op false).fail op error).party other = w.party other := by
  obtain ⟨toParent, toChild, rfl, -⟩ := h.read
  cases hstage : op.stage with
  | none =>
      rw [fail_of_no_stage hstage]
      exact setOps_party_other w who other rest hother
  | some st =>
      obtain ⟨rfl, -⟩ := hinv.progress hops hstage
      rw [fail_party_other hstage hother]
      exact setOps_party_other w _ other rest hother

theorem Fails.life {error : Error} {other : Who} (h : Fails s w who op rest next) :
    (((next.record op false).fail op error).party other).life = (w.party other).life := by
  obtain ⟨toParent, toChild, rfl, -⟩ := h.read
  rw [fail_life]
  exact setOps_life w who other rest

theorem Fails.killed {error : Error} {other : Who} (h : Fails s w who op rest next) :
    (((next.record op false).fail op error).party other).killed = (w.party other).killed := by
  obtain ⟨toParent, toChild, rfl, -⟩ := h.read
  rw [fail_killed]
  exact setOps_killed w who other rest

theorem Fails.keepsParent {error : Error} {other : Who} (h : Fails s w who op rest next) :
    (((next.record op false).fail op error).party other).keepsParent =
      (w.party other).keepsParent := by
  obtain ⟨toParent, toChild, rfl, -⟩ := h.read
  rw [fail_keepsParent]
  exact setOps_keepsParent w who other rest

/-- A child that fails reports it and exits, and then it exits. -/
theorem Fails.ending {error : Error} (h : Fails s w who op rest next) (hw : Children w)
    (hinv : InOrder s w) (hops : (w.party who).ops = op :: rest) (hwho : who ≠ .parent)
    (hlife : (w.party who).life = .running) :
    (∃ x, (((next.record op false).fail op error).party who).ops.getLast? = some x ∧ x.Final) ∨
      ⟨.init .execve, true⟩ ∈ w.log := by
  have hexit := h.ne_exit
  obtain ⟨toParent, toChild, rfl, -⟩ := h.read
  have hleft : op.stage = none → _ := fun hstage => hw.ending_popped hops hwho hlife
  cases op with
  | intermediate op =>
      obtain ⟨rfl, -⟩ := hinv.progress hops rfl
      exact Or.inl ⟨.failing .exit, by simp [World.fail, Stage.owner], Or.inr (Or.inr rfl)⟩
  | init op =>
      obtain ⟨rfl, -⟩ := hinv.progress hops rfl
      exact Or.inl ⟨.failing .exit, by simp [World.fail, Stage.owner], Or.inr (Or.inr rfl)⟩
  | prepare op =>
      obtain ⟨rfl, -⟩ := hinv.progress hops rfl
      exact absurd rfl hwho
  | mapping op =>
      obtain ⟨rfl, -⟩ := hinv.progress hops rfl
      exact absurd rfl hwho
  | settle op =>
      obtain ⟨rfl, -⟩ := hinv.progress hops rfl
      exact absurd rfl hwho
  | _ =>
      rcases hleft rfl with hlast | ⟨-, hfinal⟩ | hexecve
      · exact Or.inl hlast
      · rcases hfinal with heq | heq | heq
        · cases heq
        · cases heq
        · exact absurd heq hexit
      · exact Or.inr hexecve

theorem Fails.own {error : Error} (h : Fails s w who op rest next) (hw : Children w)
    (hinv : InOrder s w) (hops : (w.party who).ops = op :: rest) (hwho : who ≠ .parent) {x : Op}
    (hx : x ∈ (((next.record op false).fail op error).party who).ops) (hidle : x.Idle) :
    ∃ f, x = .failing f := by
  cases hstage : op.stage with
  | none =>
      rw [fail_of_no_stage hstage, record_party, h.read.party] at hx
      exact hw.own who hwho x (popped_subset hops hx) hidle
  | some st =>
      obtain ⟨rfl, -⟩ := hinv.progress hops hstage
      cases op with
      | intermediate op =>
          cases hstage
          simp only [World.fail, Stage.owner, setOps_ops_self, List.mem_cons, List.not_mem_nil,
            or_false] at hx
          rcases hx with rfl | rfl <;> exact ⟨_, rfl⟩
      | init op =>
          cases hstage
          simp only [World.fail, Stage.owner, setOps_ops_self, List.mem_cons, List.not_mem_nil,
            or_false] at hx
          rcases hx with rfl | rfl <;> exact ⟨_, rfl⟩
      | cleanup op => cases hstage
      | failing op => cases hstage
      | readerOpens => cases hstage
      | _ =>
          cases hstage
          exact absurd rfl hwho

theorem Children.failed {error : Error} (hw : Children w) (hinv : InOrder s w)
    (hops : (w.party who).ops = op :: rest) (h : Fails s w who op rest next) :
    Children ((next.record op false).fail op error) where
  dropping := by
    intro hkeeps
    rw [h.keepsParent] at hkeeps
    have hhead := hw.dropping hkeeps
    rw [h.life]
    by_cases hwho : .intermediate = who
    · subst hwho
      rw [hops] at hhead
      exact absurd (Option.some.inj hhead.2) h.ne_dropParent
    · rw [h.party_other hinv hops hwho]
      exact hhead
  closed := by
    rw [h.keepsParent]
    exact hw.closed
  ending := by
    intro other hother hlife
    rw [h.life] at hlife
    rw [fail_log, record_log, h.read.log]
    by_cases hwho : other = who
    · subst hwho
      exact (h.ending hw hinv hops hother hlife).imp_right (List.mem_append_left _)
    · rw [h.party_other hinv hops hwho]
      exact (hw.ending other hother hlife).imp_right (List.mem_append_left _)
  own := by
    intro other hother x hx hidle
    by_cases hwho : other = who
    · subst hwho
      exact h.own hw hinv hops hother hx hidle
    · rw [h.party_other hinv hops hwho] at hx
      exact hw.own other hother x hx hidle
  met := by
    rw [fail_log, record_log, fail_reader, h.read.log]
    intro hmem
    show next.reader = true
    rw [h.read.reader]
    simp only [List.mem_append, List.mem_singleton] at hmem
    rcases hmem with hmem | hmem
    · exact hw.met hmem
    · cases hmem

theorem Children.leave (hw : Children w) : Children (w.leave who) where
  dropping := by
    rw [World.leave, update_party]
    split
    next =>
      intro hkeeps
      cases hkeeps
    next => exact hw.dropping
  closed := by
    rw [World.leave, update_party]
    split
    next => rfl
    next => exact hw.closed
  ending := by
    intro other hother hlife
    rw [World.leave, update_party] at hlife ⊢
    split at hlife
    next => cases hlife
    next hne =>
      rw [if_neg hne]
      exact hw.ending other hother hlife
  own := by
    intro other hother x hx
    rcases leave_ops w who other with hsame | hnil
    · exact hw.own other hother x (hsame ▸ hx)
    · simp [hnil] at hx
  met := hw.met

theorem Children.kill (hw : Children w) :
    Children (w.update who fun p => { p with killed := true }) where
  dropping := by
    rw [update_party]
    split
    next heq => exact heq ▸ hw.dropping
    next => exact hw.dropping
  closed := by
    rw [update_party]
    split
    next heq => exact heq ▸ hw.closed
    next => exact hw.closed
  ending := by
    intro other hother hlife
    rw [update_party] at hlife ⊢
    split at hlife
    next heq =>
      rw [if_pos heq]
      exact heq ▸ hw.ending other hother (heq ▸ hlife)
    next hne =>
      rw [if_neg hne]
      exact hw.ending other hother hlife
  own := by
    intro other hother x hx
    have hsame := update_ops w who other (fun p => { p with killed := true }) fun _ => rfl
    exact hw.own other hother x (hsame ▸ hx)
  met := hw.met

theorem Children.opened (hw : Children w) :
    Children ({ w with reader := true }.record .readerOpens true) where
  dropping := hw.dropping
  closed := hw.closed
  ending := fun other hother hlife =>
    (hw.ending other hother hlife).imp_right (List.mem_append_left _)
  own := hw.own
  met := fun _ => rfl

end children

end Mars.Protocol
