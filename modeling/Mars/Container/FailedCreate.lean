import Mars.Container.Cleanup
import Mars.Container.Placement

/-! # A failed create leaves nothing behind -/

namespace Mars.Protocol
open Spec Namespace Hooks Sync History

section waiting
variable {s : Setting} {w : World} {who : Who} {op : Op} {rest : List Op}

/-- What a child may wait for: a message, while the runtime's end is open
somewhere, or whoever opens the fifo. -/
theorem blocked_child (h : perform s w who op = .blocked)
    (hop : (∃ x, op = .intermediate x) ∨ (∃ x, op = .init x) ∨ ∃ x, op = .failing x) :
    (op = .intermediate .expectUserMappingDone ∧ w.parentOpen = true) ∨
      (op = .init .expectCgroupApplied ∧ w.parentOpen = true) ∨
      (op = .init .meetReader ∧ w.reader = false) := by
  have hsend : ∀ m, sendToParent w m ≠ .blocked := by
    intro m
    unfold sendToParent
    split <;> nofun
  have hexpect : ∀ want, expectFromParent w want = .blocked → w.parentOpen = true := by
    intro want h
    unfold expectFromParent at h
    split at h
    next =>
      split at h
      next hopen => exact hopen
      next => cases h
    next => split at h <;> cases h
  rcases hop with ⟨x, rfl⟩ | ⟨x, rfl⟩ | ⟨x, rfl⟩
  · cases x with
    | expectUserMappingDone => exact Or.inl ⟨rfl, hexpect _ h⟩
    | sendRequestUserMapping => exact absurd h (hsend _)
    | sendInitPid => exact absurd h (hsend _)
    | _ => cases h
  · cases x with
    | expectCgroupApplied => exact Or.inr (Or.inl ⟨rfl, hexpect _ h⟩)
    | sendInitReady => exact absurd h (hsend _)
    | meetReader =>
        simp only [perform, performInit] at h
        split at h
        next => cases h
        next hclosed => exact Or.inr (Or.inr ⟨rfl, by simpa using hclosed⟩)
    | _ => cases h
  · cases x with
    | sendFailed reason => exact absurd h (hsend _)
    | exit => cases h

/-- Nobody can take another step, and nobody is about to die. -/
def Settled (s : Setting) (w : World) : Prop :=
  ∀ who, step s w (.act who none) = none ∧ step s w (.die who) = none

theorem Settled.blocked (h : Settled s w) (hlife : (w.party who).life = .running)
    (hops : (w.party who).ops = op :: rest) :
    perform s (w.setOps who rest) who op = .blocked := by
  have hact := (h who).1
  simp only [step, if_pos hlife, act, hops] at hact
  split at hact
  next hblocked _ => exact hblocked
  next => cases hact
  next => cases hact
  next heq => cases heq

theorem Settled.not_killed (h : Settled s w) (hlife : (w.party who).life = .running) :
    (w.party who).killed = false := by
  have hdie := (h who).2
  rw [Bool.eq_false_iff]
  intro hkilled
  simp [step, hlife, hkilled] at hdie

end waiting

section left
variable {s : Setting} {w : World} {error : Error}

theorem Sound.not_executed (h : Sound s w) (hreader : w.reader = false) :
    ⟨.init .execve, true⟩ ∉ w.log := by
  intro hmem
  have hmet := h.inOrder.reader_first.mem hmem rfl
  rw [h.children.met hmet] at hreader
  cases hreader

theorem returned_error (h : w.returned = some (.error error)) :
    (w.party .parent).ops = [] ∧ w.error = some error := by
  unfold World.returned at h
  split at h
  next => cases h
  next hops =>
    split at h
    next e he =>
      cases h
      exact ⟨hops, he⟩
    next => cases h

/-- Once `create` has returned nothing is pending, where nothing failed. -/
theorem not_pending (hops : (w.party .parent).ops = []) {c : CleanupOp}
    (hcleanup : ⟨.cleanup c, false⟩ ∉ w.log) : ¬Pending w c := by
  rintro (hleft | hfailed)
  · rw [hops] at hleft
    cases hleft
  · exact hcleanup hfailed

theorem Sound.child_next (h : Sound s w) (who : Who) (hwho : who ≠ .parent)
    (hreader : w.reader = false) (hlife : (w.party who).life = .running) :
    ∃ op rest, (w.party who).ops = op :: rest ∧
      ((∃ x, op = .intermediate x) ∨ (∃ x, op = .init x) ∨ ∃ x, op = .failing x) := by
  rcases h.children.ending who hwho hlife with ⟨x, hlast, -⟩ | hexecve
  · cases hops : (w.party who).ops with
    | nil => simp [hops] at hlast
    | cons op rest =>
        refine ⟨op, rest, rfl, ?_⟩
        cases op with
        | intermediate x => exact Or.inl ⟨x, rfl⟩
        | init x => exact Or.inr (Or.inl ⟨x, rfl⟩)
        | failing x => exact Or.inr (Or.inr ⟨x, rfl⟩)
        | prepare x => exact absurd (h.inOrder.progress hops rfl).1.symm hwho
        | mapping x => exact absurd (h.inOrder.progress hops rfl).1.symm hwho
        | settle x => exact absurd (h.inOrder.progress hops rfl).1.symm hwho
        | cleanup x =>
            obtain ⟨f, hf⟩ := h.children.own who hwho (.cleanup x) (by simp [hops]) rfl
            cases hf
        | readerOpens =>
            obtain ⟨f, hf⟩ := h.children.own who hwho .readerOpens (by simp [hops]) rfl
            cases hf
  · exact absurd hexecve (h.not_executed hreader)

/-- Whoever parks at the fifo has been put into the cgroup. -/
theorem Sound.parked_placed (h : Sound s w) {rest : List Op}
    (hops : (w.party .init).ops = .init .meetReader :: rest) : s.initPid ∈ w.placed := by
  have hfront : [.expectCgroupApplied] <+: containerInit s.plan := ⟨_, rfl⟩
  have hexpected : ⟨.init .expectCgroupApplied, true⟩ ∈ w.log :=
    (h.inOrder.progress hops rfl).2.before (hfront.map Op.init) (by simp) _ (by simp)
  have hsent := h.inOrder.afterApplied.mem hexpected rfl
  have hfirst : Precedes w.log ⟨.settle (.addProcess s.initPid), true⟩
      fun e => e.op = .settle (.sendCgroupApplied s.initPid) := by
    have hfront : placement s.plan s.initPid <+: settleProgram s.plan s.initPid :=
      List.prefix_append _ _
    apply h.inOrder.across (hfront.map Op.settle) rfl
    · rw [List.mem_map_of_injective fun _ _ => Op.settle.inj]
      exact sendCgroupApplied_not_mem_placement _ _ _
    · simp [placement]
  exact h.cleaning.placed.mpr (hfirst.mem hsent rfl)

theorem Sound.intermediate_gone (h : Sound s w) (hsettled : Settled s w)
    (hreader : w.reader = false) (hclosed : (w.party .parent).keepsParent = false) :
    (w.party .intermediate).life ≠ .running := by
  intro hlife
  obtain ⟨op, rest, hops, hop⟩ := h.child_next .intermediate nofun hreader hlife
  have hblocked := hsettled.blocked hlife hops
  have hkeeps : (w.party .intermediate).keepsParent = true →
      op = .intermediate .dropParent := by
    intro hkeeps
    have hhead := (h.children.dropping hkeeps).2
    rw [hops] at hhead
    exact Option.some.inj hhead
  have hopen : (w.setOps .intermediate rest).parentOpen = true →
      op = .intermediate .dropParent := by
    simpa [World.parentOpen, hclosed, h.children.closed] using hkeeps
  rcases blocked_child hblocked hop with ⟨rfl, hparent⟩ | ⟨rfl, -⟩ | ⟨rfl, -⟩
  · cases hopen hparent
  · cases (h.inOrder.progress hops rfl).1
  · cases (h.inOrder.progress hops rfl).1

theorem Sound.init_gone (h : Sound s w) (hsettled : Settled s w) (hreader : w.reader = false)
    (hreturned : w.returned = some (.error error))
    (hcleanup : ∀ c, ⟨.cleanup c, false⟩ ∉ w.log)
    (hclosed : (w.party .parent).keepsParent = false) : (w.party .init).life ≠ .running := by
  intro hlife
  obtain ⟨op, rest, hops, hop⟩ := h.child_next .init nofun hreader hlife
  have hdropped : (w.party .intermediate).keepsParent = false := by
    rw [Bool.eq_false_iff]
    intro hkeeps
    exact h.intermediate_gone hsettled hreader hclosed (h.children.dropping hkeeps).1
  have hopen : (w.setOps .init rest).parentOpen = false := by
    simp [World.parentOpen, hclosed, hdropped, h.children.closed]
  rcases blocked_child (hsettled.blocked hlife hops) hop with ⟨-, hparent⟩ | ⟨-, hparent⟩ | ⟨rfl, -⟩
  · rw [hopen] at hparent
    cases hparent
  · rw [hopen] at hparent
    cases hparent
  · -- parked at the fifo it hears nothing, but the cgroup's kill has reached it
    obtain ⟨hnone, hsome⟩ := returned_error hreturned
    have herror : w.error.isSome := by rw [hsome]; rfl
    rcases h.cleaning.killed herror (h.parked_placed hops) hlife with hkilled | hpending
    · rw [hsettled.not_killed hlife] at hkilled
      cases hkilled
    · exact not_pending hnone (hcleanup _) hpending

/-- Where no cleanup step fails and nobody starts the container, a create that
returns an error leaves no directory, no executed program and no child. -/
theorem failed_create_leaves_nothing {dir : Bool} {events : List Event}
    (hrun : Transition.run (step s) (start s dir false) events = some w)
    (hreader : w.reader = false) (hcleanup : ∀ c, ⟨.cleanup c, false⟩ ∉ w.log)
    (hreturned : w.returned = some (.error error)) :
    w.dir = false ∧ ⟨.init .execve, true⟩ ∉ w.log ∧
      (Settled s w → (w.party .intermediate).life ≠ .running ∧
        (w.party .init).life ≠ .running) := by
  have h := sound_run hrun
  obtain ⟨hnone, hsome⟩ := returned_error hreturned
  have herror : w.error.isSome := by rw [hsome]; rfl
  have hclosed : (w.party .parent).keepsParent = false := by
    rw [Bool.eq_false_iff]
    intro hkeeps
    exact not_pending hnone (hcleanup _) (h.cleaning.channel herror hkeeps)
  refine ⟨?_, h.not_executed hreader, fun hsettled => ⟨?_, ?_⟩⟩
  · rw [Bool.eq_false_iff]
    intro hdir
    exact not_pending hnone (hcleanup _) (h.cleaning.dir herror hdir)
  · exact h.intermediate_gone hsettled hreader hclosed
  · exact h.init_gone hsettled hreader hreturned hcleanup hclosed

end left

/-! ## A create that fails late -/

open Placement in
/-- The pid file cannot be written, and init already waits at the fifo. -/
def pidFileRun : List Event :=
  acts .parent 14 ++ acts .intermediate 3 ++ acts .parent 6 ++ acts .intermediate 6 ++
    acts .parent 4 ++ acts .init 8 ++ acts .parent 3 ++
    .act .parent (some .syscall) :: acts .parent 2 ++ .die .init :: acts .parent 4

theorem pidFileRun_enabled : (Transition.run (step Placement.userSetting)
    (start Placement.userSetting false false) pidFileRun).isSome = true := by rfl

def pidFileWorld : World := Option.get _ pidFileRun_enabled

theorem failed_create_leaves_nothing_pid_file :
    pidFileWorld.returned = some (.error .syscall) ∧
      Settled Placement.userSetting pidFileWorld ∧ pidFileWorld.dir = false ∧
      ⟨.init .execve, true⟩ ∉ pidFileWorld.log ∧
      (pidFileWorld.party .intermediate).life ≠ .running ∧
      (pidFileWorld.party .init).life ≠ .running := by
  have hrun : Transition.run (step Placement.userSetting)
      (start Placement.userSetting false false) pidFileRun = some pidFileWorld :=
    (Option.some_get pidFileRun_enabled).symm
  have hcleanup : ∀ c, ⟨.cleanup c, false⟩ ∉ pidFileWorld.log := by
    intro c
    cases c <;> decide
  have hreturned : pidFileWorld.returned = some (.error .syscall) := by rfl
  have hsettled : Settled Placement.userSetting pidFileWorld := by
    intro who
    cases who <;> exact ⟨rfl, rfl⟩
  obtain ⟨hdir, hexecve, hgone⟩ := failed_create_leaves_nothing hrun rfl hcleanup hreturned
  exact ⟨hreturned, hsettled, hdir, hexecve, hgone hsettled⟩

end Mars.Protocol
