import Mars.Container.ExecProtocol
import Mars.Container.Ordering

/-! # The order of both placement protocols

No process of a container goes on before it is in the container's cgroup, and
no container is recorded or started before it is set up.
-/

namespace Mars.Placement
open Spec Namespace Hooks History Protocol

/-- What comes after what in the history of a create. -/
structure Ordered (s : Setting) (log : List (Entry Op)) : Prop where
  /-- The ids are mapped before the intermediate takes on one or forks init. -/
  mapped : contains s.plan.unshareFlags CLONE_NEWUSER = true →
    ∀ y, y = .writeUidMap ∨ y = .writeGidMap →
    ∀ x, x = .setresgid ∨ x = .setresuid ∨ x = .fork →
      Precedes log ⟨.mapping y, true⟩ fun e => e.op = .intermediate x
  /-- Init itself is in the cgroup before it does anything but wait, -/
  placed : ∀ x, x ≠ .expectCgroupApplied →
    Precedes log ⟨.settle (.addProcess s.initPid), true⟩ fun e => e.op = .init x
  /-- and the runtime's hooks have succeeded. -/
  hooked : ∀ phase, phase = .prestart ∨ phase = .createRuntime →
    ∀ index < (selected s.plan.bundle.spec.hooks phase).length,
    ∀ x, x ≠ .expectCgroupApplied →
      Precedes log ⟨.settle (.hook phase index), true⟩ fun e => e.op = .init x
  /-- The state is written after all of init's setup and its report. -/
  saved : ∀ y, y ∈ setup s.plan ∨ y = .sendInitReady → ∀ pid,
    Precedes log ⟨.init y, true⟩ fun e => e.op = .settle (.save pid)
  /-- The program is executed after the fifo's writer has met a reader. -/
  met : Precedes log ⟨.init .meetReader, true⟩ fun e => e.op = .init .execve
  opened : Precedes log ⟨.readerOpens, true⟩ (· = ⟨.init .meetReader, true⟩)

theorem hook_mem_placement {plan : Plan} {pid : Int} {index : Nat} {phase : Hooks.Phase}
    (hphase : phase = .prestart ∨ phase = .createRuntime)
    (hindex : index < (selected plan.bundle.spec.hooks phase).length) :
    .hook phase index ∈ placement plan pid := by
  have hmem : .hook phase index ∈ hookOps SettleOp.hookPayload .hook plan phase :=
    hook_mem_hookOps hindex
  rcases hphase with rfl | rfl
  · exact List.mem_append_left _ (List.mem_append_right _ hmem)
  · exact List.mem_append_right _ hmem

theorem ordered_of_inOrder {s : Setting} {w : World} (h : InOrder s w) : Ordered s w.log where
  mapped := by
    intro huser y hy x hx
    apply h.idMap_first huser _ hy
    rcases hx with rfl | rfl | rfl <;> rfl
  placed := fun x hx => h.placement_first (by simp [placement]) hx
  hooked := fun _ hphase _ hindex x hx => h.placement_first (hook_mem_placement hphase hindex) hx
  saved := fun y hy pid => h.setup_first hy pid
  met := h.reader_first
  opened := h.afterReader

/-- In every run of a create and of an exec the steps come in the right order. -/
theorem placement_ordered :
    (∀ (s : Setting) (dir stateFile : Bool) (events : List Event) (w : World),
      Transition.run (step s) (start s dir stateFile) events = some w → Ordered s w.log) ∧
    ∀ (s : ExecProtocol.Setting) (events : List ExecProtocol.Event) (w : ExecProtocol.World),
      Transition.run (ExecProtocol.step s) (ExecProtocol.start s) events = some w →
      ∀ x ∈ ExecProtocol.enter s,
        Precedes w.log ⟨.caller (.place s.pid), true⟩ fun e => e.op = .child x := by
  constructor
  · intro s dir stateFile events w hrun
    exact ordered_of_inOrder (inOrder_run hrun)
  · intro s events w hrun x hx
    exact (ExecProtocol.inOrder_run hrun).place_first hx

/-! ## A run of each -/

def emptySpec : Spec where
  root := none
  process := none
  hostname := none
  domainname := none
  mounts := none
  hooks := none

/-- A container with a user namespace and nothing else of its own. -/
def userPlan : Plan where
  bundle := { dir := "/bundle", spec := emptySpec }
  overlay := false
  unshareFlags := CLONE_NEWUSER
  join := []
  cgroupNs := false
  console := false
  resources := false
  seccomp := false
  timeOffsets := false

def userSetting : Setting where
  plan := userPlan
  id := "c1"
  initPid := 7
  intermediatePhases := []
  initPhases := []

def acts (who : Who) (n : Nat) : List Event := List.replicate n (.act who none)

/-- A create with the start behind it. -/
def createRun : List Event :=
  acts .parent 14 ++ acts .intermediate 3 ++ acts .parent 6 ++ acts .intermediate 6 ++
    acts .parent 4 ++ acts .init 8 ++ acts .parent 5 ++ .reader :: acts .init 4

def shellSetting : ExecProtocol.Setting where
  options := {
    argv := ["/bin/sh"], env := [], cwd := none, process := none, user := none,
    additionalGids := [], consoleSocket := none, tty := false, detach := true, pidFile := none,
    ignorePaused := false }
  target := {
    argv := ["/bin/sh"], env := [], cwd := "/", uid := none, gid := none, groups := [],
    terminal := false }
  joins := ["pid", "mnt"]
  pid := 9

def execRun : List ExecProtocol.Event :=
  List.replicate 15 (.act .caller false) ++ List.replicate 8 (.act .child false)

theorem placement_ordered_user :
    (∃ w, Transition.run (step userSetting) (start userSetting false false) createRun = some w ∧
      ⟨.init .execve, true⟩ ∈ w.log ∧ Ordered userSetting w.log) ∧
    ∃ w, Transition.run (ExecProtocol.step shellSetting) (ExecProtocol.start shellSetting)
        execRun = some w ∧
      ⟨.child .execve, true⟩ ∈ w.log ∧
      Precedes w.log ⟨.caller (.place 9), true⟩ fun e => e.op = .child .execve := by
  have hcreate : (Transition.run (step userSetting) (start userSetting false false) createRun).any
      (fun w => decide (⟨.init .execve, true⟩ ∈ w.log)) = true := by rfl
  have hexec : (Transition.run (ExecProtocol.step shellSetting) (ExecProtocol.start shellSetting)
      execRun).any (fun w => decide (⟨.child .execve, true⟩ ∈ w.log)) = true := by rfl
  obtain ⟨w, hw, hexecve⟩ := (Option.any_eq_true _ _).mp hcreate
  obtain ⟨w', hw', hexecve'⟩ := (Option.any_eq_true _ _).mp hexec
  refine ⟨⟨w, hw, of_decide_eq_true hexecve, placement_ordered.1 _ _ _ _ _ hw⟩,
    w', hw', of_decide_eq_true hexecve', ?_⟩
  exact placement_ordered.2 _ _ _ hw' .execve (by decide)

end Mars.Placement
