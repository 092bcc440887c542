import Mars.Container.HookedCreate

/-! # A create in which nothing fails

Where none of the early hooks fails and the plan is not refused, the parties can
take their steps in turn and `create` returns well. What is followed is the
parties and the two queues; the rest of the world does not matter.
-/

namespace Mars.Protocol
open Spec Namespace Hooks Sync History

/-! ## Shapes -/

/-- The parties of a world and the messages in flight. -/
structure Shape where
  party : Who → Party
  toParent : List Message
  toChild : List Message

structure Fits (w : World) (v : Shape) : Prop where
  party : w.party = v.party
  error : w.error = none
  toParent : w.toParent = v.toParent
  toChild : w.toChild = v.toChild

/-- Any world of the one shape can get into one of the other. -/
def Can (s : Setting) (outcomes : Outcomes) (v v' : Shape) : Prop :=
  ∀ w, Fits w v → ∃ events w', Transition.run (hookedStep s outcomes) w events = some w' ∧
    Fits w' v'

def Shape.setOps (v : Shape) (who : Who) (ops : List Op) : Shape :=
  { v with party := Function.update v.party who { v.party who with ops := ops } }

/-- A step that neither waits nor fails and changes no party and no queue. -/
def Plain (s : Setting) (outcomes : Outcomes) (op : Op) : Prop :=
  (∀ phase index, op.hook = some (phase, index) → hookError s.plan outcomes phase index = none) ∧
    ∀ w who, ∃ next, perform s w who op = .done next ∧ next.party = w.party ∧
      next.error = w.error ∧ next.toParent = w.toParent ∧ next.toChild = w.toChild

section shapes
variable {s : Setting} {outcomes : Outcomes} {v v' v'' : Shape} {w next : World} {who : Who}
  {op : Op} {rest front : List Op}

theorem Can.refl (v : Shape) : Can s outcomes v v := fun w hw => ⟨[], w, rfl, hw⟩

theorem Can.trans (h : Can s outcomes v v') (h' : Can s outcomes v' v'') :
    Can s outcomes v v'' := by
  intro w hw
  obtain ⟨front, middle, hfront, hmiddle⟩ := h w hw
  obtain ⟨back, last, hback, hlast⟩ := h' middle hmiddle
  refine ⟨front ++ back, last, ?_, hlast⟩
  rw [Transition.run_append, hfront]
  exact hback

theorem fits_setOps (h : Fits w v) (who : Who) (ops : List Op) :
    Fits (w.setOps who ops) (v.setOps who ops) where
  party := by simp [World.setOps, World.update, Shape.setOps, h.party]
  error := h.error
  toParent := h.toParent
  toChild := h.toChild

theorem hookedStep_done (hlife : (w.party who).life = .running)
    (hops : (w.party who).ops = op :: rest)
    (hpasses : ∀ phase index, op.hook = some (phase, index) →
      hookError s.plan outcomes phase index = none)
    (hdone : perform s (w.setOps who rest) who op = .done next) :
    hookedStep s outcomes w (.act who none) = some (next.record op true) := by
  have hguide : guide s outcomes w (.act who none) = .act who none := by
    simp only [guide, hops, List.head?_cons, Option.bind_some]
    split
    next phase index hhook => rw [hpasses phase index hhook]
    next => rfl
  simp only [hookedStep, hguide, step, if_pos hlife, act, hops, hdone]

/-- One step, from what it does to the shape that is left when it is taken off. -/
theorem Can.act (who : Who) (hlife : (v.party who).life = .running)
    (hops : (v.party who).ops = op :: rest)
    (hhook : op.hook = none)
    (hdone : ∀ w, Fits w (v.setOps who rest) → ∃ next, perform s w who op = .done next ∧
      Fits next v') : Can s outcomes v v' := by
  intro w hw
  obtain ⟨next, hnext, hfits⟩ := hdone _ (fits_setOps hw who rest)
  refine ⟨[.act who none], next.record op true, ?_, hfits.party, hfits.error, hfits.toParent,
    hfits.toChild⟩
  rw [Transition.run, hookedStep_done (by rw [hw.party, hlife]) (by rw [hw.party, hops])
    (by simp [hhook]) hnext]
  rfl

/-- Plain steps are taken one after the other. -/
theorem Can.plain (who : Who) (hfront : ∀ op ∈ front, Plain s outcomes op)
    (hlife : (v.party who).life = .running) (hops : (v.party who).ops = front ++ rest) :
    Can s outcomes v (v.setOps who rest) := by
  induction front generalizing v with
  | nil =>
      have hsame : v.setOps who rest = v := by
        have hparty : { v.party who with ops := rest } = v.party who := by
          rw [show rest = (v.party who).ops from hops.symm]
        rw [Shape.setOps, hparty, Function.update_eq_self]
      rw [hsame]
      exact Can.refl v
  | cons op front ih =>
      obtain ⟨hpasses, hperform⟩ := hfront op List.mem_cons_self
      have hfirst : Can s outcomes v (v.setOps who (front ++ rest)) := by
        intro w hw
        obtain ⟨next, hnext, hparty, herror, hparent, hchild⟩ :=
          hperform (w.setOps who (front ++ rest)) who
        have hfits := fits_setOps hw who (front ++ rest)
        refine ⟨[.act who none], next.record op true, ?_, hparty.trans hfits.party,
          herror.trans hfits.error, hparent.trans hfits.toParent, hchild.trans hfits.toChild⟩
        rw [Transition.run, hookedStep_done (by rw [hw.party, hlife])
          (by rw [hw.party, hops]; rfl) hpasses hnext]
        rfl
      have hothers : Can s outcomes (v.setOps who (front ++ rest))
          ((v.setOps who (front ++ rest)).setOps who rest) :=
        ih (fun x hx => hfront x (List.mem_cons_of_mem _ hx)) (by simp [Shape.setOps, hlife])
          (by simp [Shape.setOps])
      have hsame : (v.setOps who (front ++ rest)).setOps who rest = v.setOps who rest := by
        simp [Shape.setOps]
      exact hfirst.trans (hsame ▸ hothers)

end shapes

/-! ## The steps that matter -/

def parties (p i c : Party) : Who → Party
  | .parent => p
  | .intermediate => i
  | .init => c

def shape (p i c : Party) (toParent toChild : List Message) : Shape :=
  { party := parties p i c, toParent := toParent, toChild := toChild }

def alive (ops : List Op) (keepsParent keepsChild : Bool) : Party :=
  { life := .running, ops := ops, keepsParent := keepsParent, keepsChild := keepsChild,
    killed := false }

def unborn : Party :=
  { life := .unborn, ops := [], keepsParent := false, keepsChild := false, killed := false }

def exited : Party :=
  { life := .exited, ops := [], keepsParent := false, keepsChild := false, killed := false }

section steps
variable {s : Setting} {outcomes : Outcomes} {p i c q : Party} {toParent toChild : List Message}
  {ops rest front : List Op} {keepsParent keepsChild : Bool}

@[simp] theorem update_parent : Function.update (parties p i c) .parent q = parties q i c := by
  funext who
  cases who <;> rfl

@[simp] theorem update_intermediate :
    Function.update (parties p i c) .intermediate q = parties p q c := by
  funext who
  cases who <;> rfl

@[simp] theorem update_init : Function.update (parties p i c) .init q = parties p i q := by
  funext who
  cases who <;> rfl

/-- A step that changes only parties. -/
theorem Can.change (who : Who) {op : Op} {v v' : Shape} (hlife : (v.party who).life = .running)
    (hops : (v.party who).ops = op :: rest) (hhook : op.hook = none)
    (hdone : ∀ w, Fits w (v.setOps who rest) → ∃ party,
      perform s w who op = .done { w with party := party } ∧ party = v'.party)
    (hparent : v'.toParent = v.toParent) (hchild : v'.toChild = v.toChild) :
    Can s outcomes v v' := by
  refine Can.act who hlife hops hhook fun w hw => ?_
  obtain ⟨party, hnext, hparty⟩ := hdone w hw
  exact ⟨_, hnext, hparty, hw.error, hw.toParent.trans hparent.symm, hw.toChild.trans hchild.symm⟩

theorem can_plain_parent (hfront : ∀ op ∈ front, Plain s outcomes op) : Can s outcomes
    (shape (alive (front ++ rest) keepsParent keepsChild) i c toParent toChild)
    (shape (alive rest keepsParent keepsChild) i c toParent toChild) := by
  have hplain := @Can.plain s outcomes
    (shape (alive (front ++ rest) keepsParent keepsChild) i c toParent toChild) rest front .parent
    hfront rfl rfl
  simpa [Shape.setOps, shape, alive, parties] using hplain

theorem can_plain_intermediate (hfront : ∀ op ∈ front, Plain s outcomes op) : Can s outcomes
    (shape p (alive (front ++ rest) keepsParent keepsChild) c toParent toChild)
    (shape p (alive rest keepsParent keepsChild) c toParent toChild) := by
  have hplain := @Can.plain s outcomes
    (shape p (alive (front ++ rest) keepsParent keepsChild) c toParent toChild) rest front
    .intermediate hfront rfl rfl
  simpa [Shape.setOps, shape, alive, parties] using hplain

theorem can_plain_init (hfront : ∀ op ∈ front, Plain s outcomes op) : Can s outcomes
    (shape p i (alive (front ++ rest) keepsParent keepsChild) toParent toChild)
    (shape p i (alive rest keepsParent keepsChild) toParent toChild) := by
  have hplain := @Can.plain s outcomes
    (shape p i (alive (front ++ rest) keepsParent keepsChild) toParent toChild) rest front
    .init hfront rfl rfl
  simpa [Shape.setOps, shape, alive, parties] using hplain

/-! ### Messages -/

theorem Can.sendParent (who : Who) {op : Op} {m : Message} {v : Shape}
    (hlife : (v.party who).life = .running) (hops : (v.party who).ops = op :: rest)
    (hhook : op.hook = none) (hperform : ∀ w, perform s w who op = sendToParent w m)
    (hopen : (v.party .parent).keepsParent = true) :
    Can s outcomes v { v.setOps who rest with toParent := v.toParent ++ [m] } := by
  refine Can.act who hlife hops hhook fun w hw => ?_
  have hkeeps : (w.party .parent).keepsParent = true := by
    rw [hw.party]
    cases who <;> simpa [Shape.setOps, Function.update_of_ne] using hopen
  refine ⟨{ w with toParent := w.toParent ++ [m] }, ?_, hw.party, hw.error, ?_, hw.toChild⟩
  · rw [hperform, sendToParent, if_pos (by simp [World.parentOpen, hkeeps])]
  · exact congrArg (· ++ [m]) hw.toParent

theorem Can.sendChild (who : Who) {op : Op} {m : Message} {v : Shape} (other : Who)
    (hlife : (v.party who).life = .running) (hops : (v.party who).ops = op :: rest)
    (hhook : op.hook = none) (hperform : ∀ w, perform s w who op = sendToChild w m)
    (hne : other ≠ who) (hopen : (v.party other).keepsChild = true) :
    Can s outcomes v { v.setOps who rest with toChild := v.toChild ++ [m] } := by
  refine Can.act who hlife hops hhook fun w hw => ?_
  have hkeeps : (w.party other).keepsChild = true := by
    rw [hw.party]
    simpa [Shape.setOps, Function.update_of_ne hne] using hopen
  refine ⟨{ w with toChild := w.toChild ++ [m] }, ?_, hw.party, hw.error, hw.toParent, ?_⟩
  · rw [hperform, sendToChild, if_pos (by cases other <;> simp [World.childOpen, hkeeps])]
  · exact congrArg (· ++ [m]) hw.toChild

theorem Can.expectParent (who : Who) {op : Op} {m : Message} {want : Want} {v : Shape}
    (hlife : (v.party who).life = .running) (hops : (v.party who).ops = op :: rest)
    (hhook : op.hook = none) (hperform : ∀ w, perform s w who op = expectFromParent w want)
    (hqueue : v.toChild = [m]) (hwant : expect want m = .ok m) :
    Can s outcomes v { v.setOps who rest with toChild := [] } := by
  refine Can.act who hlife hops hhook fun w hw => ?_
  have hone : w.toChild = [m] := hw.toChild.trans hqueue
  refine ⟨{ w with toChild := [] }, ?_, hw.party, hw.error, hw.toParent, rfl⟩
  rw [hperform]
  simp only [expectFromParent, hone, hwant]

theorem Can.expectChild (who : Who) {op : Op} {m : Message} {want : Want} {v : Shape}
    (hlife : (v.party who).life = .running) (hops : (v.party who).ops = op :: rest)
    (hhook : op.hook = none) (hperform : ∀ w, perform s w who op = expectFromChild w want)
    (hqueue : v.toParent = [m]) (hwant : expect want m = .ok m) :
    Can s outcomes v { v.setOps who rest with toParent := [] } := by
  refine Can.act who hlife hops hhook fun w hw => ?_
  have hone : w.toParent = [m] := hw.toParent.trans hqueue
  refine ⟨{ w with toParent := [] }, ?_, hw.party, hw.error, rfl, hw.toChild⟩
  rw [hperform]
  simp only [expectFromChild, hone, hwant]

theorem can_say {op : Op} {m : Message} (hhook : op.hook = none)
    (hperform : ∀ w who, perform s w who op = sendToParent w m) : Can s outcomes
      (shape (alive ops true keepsChild) (alive (op :: rest) false true) c [] toChild)
      (shape (alive ops true keepsChild) (alive rest false true) c [m] toChild) := by
  have hsend := @Can.sendParent s outcomes rest .intermediate op m
    (shape (alive ops true keepsChild) (alive (op :: rest) false true) c [] toChild)
    rfl rfl hhook (fun w => hperform w _) rfl
  simpa [Shape.setOps, shape, alive, parties] using hsend

theorem can_report {op : Op} {m : Message} (hhook : op.hook = none)
    (hperform : ∀ w who, perform s w who op = sendToParent w m) : Can s outcomes
      (shape (alive ops true keepsChild) i (alive (op :: rest) false true) [] toChild)
      (shape (alive ops true keepsChild) i (alive rest false true) [m] toChild) := by
  have hsend := @Can.sendParent s outcomes rest .init op m
    (shape (alive ops true keepsChild) i (alive (op :: rest) false true) [] toChild)
    rfl rfl hhook (fun w => hperform w _) rfl
  simpa [Shape.setOps, shape, alive, parties] using hsend

theorem can_mapped : Can s outcomes
    (shape (alive (.mapping .sendUserMappingDone :: rest) true false) (alive ops false true) c
      toParent [])
    (shape (alive rest true false) (alive ops false true) c toParent [.userMappingDone]) := by
  have hsend := @Can.sendChild s outcomes rest .parent (.mapping .sendUserMappingDone)
    .userMappingDone (shape (alive (.mapping .sendUserMappingDone :: rest) true false)
      (alive ops false true) c toParent []) .intermediate rfl rfl rfl (fun _ => rfl) nofun rfl
  simpa [Shape.setOps, shape, alive, parties] using hsend

theorem can_permit {pid : Int} : Can s outcomes
    (shape (alive (.settle (.sendCgroupApplied pid) :: rest) true false) i
      (alive ops false true) toParent [])
    (shape (alive rest true false) i (alive ops false true) toParent [.cgroupApplied pid]) := by
  have hsend := @Can.sendChild s outcomes rest .parent (.settle (.sendCgroupApplied pid))
    (.cgroupApplied pid) (shape (alive (.settle (.sendCgroupApplied pid) :: rest) true false) i
      (alive ops false true) toParent []) .init rfl rfl rfl (fun _ => rfl) nofun rfl
  simpa [Shape.setOps, shape, alive, parties] using hsend

theorem can_hearMapped : Can s outcomes
    (shape p (alive (.intermediate .expectUserMappingDone :: rest) false true) c toParent
      [.userMappingDone])
    (shape p (alive rest false true) c toParent []) := by
  have hexpect := @Can.expectParent s outcomes rest .intermediate
    (.intermediate .expectUserMappingDone) .userMappingDone .userMappingDone
    (shape p (alive (.intermediate .expectUserMappingDone :: rest) false true) c toParent
      [.userMappingDone]) rfl rfl rfl (fun _ => rfl) rfl rfl
  simpa [Shape.setOps, shape, alive, parties] using hexpect

theorem can_hearPermit {pid : Int} : Can s outcomes
    (shape p i (alive (.init .expectCgroupApplied :: rest) false true) toParent
      [.cgroupApplied pid])
    (shape p i (alive rest false true) toParent []) := by
  have hexpect := @Can.expectParent s outcomes rest .init (.init .expectCgroupApplied)
    (.cgroupApplied pid) .cgroupApplied (shape p i (alive (.init .expectCgroupApplied :: rest)
      false true) toParent [.cgroupApplied pid]) rfl rfl rfl (fun _ => rfl) rfl rfl
  simpa [Shape.setOps, shape, alive, parties] using hexpect

theorem can_hearReady {phases : List Sync.Phase} : Can s outcomes
    (shape (alive (.settle .expectInitReady :: rest) true false) i c [.initReady phases] toChild)
    (shape (alive rest true false) i c [] toChild) := by
  have hexpect := @Can.expectChild s outcomes rest .parent (.settle .expectInitReady)
    (.initReady phases) .initReady (shape (alive (.settle .expectInitReady :: rest) true false) i
      c [.initReady phases] toChild) rfl rfl rfl (fun _ => rfl) rfl rfl
  simpa [Shape.setOps, shape, alive, parties] using hexpect

/-! ### Forks, ends and exits -/

theorem can_pair : Can s outcomes
    (shape (alive (.prepare .pair :: rest) false false) i c toParent toChild)
    (shape (alive rest true true) i c toParent toChild) := by
  refine Can.change .parent rfl rfl rfl (fun w hw => ⟨_, rfl, ?_⟩) rfl rfl
  simp [hw.party, Shape.setOps, shape]
  simp [parties, alive]

theorem can_fork : Can s outcomes
    (shape (alive (.prepare .fork :: rest) true true) i c toParent toChild)
    (shape (alive rest true true) (alive ((stageOne s.plan).map .intermediate) true true) c
      toParent toChild) := by
  refine Can.change .parent rfl rfl rfl (fun w hw => ⟨_, rfl, ?_⟩) rfl rfl
  simp [hw.party, Shape.setOps, shape]
  simp [parties, alive]

theorem can_dropChild : Can s outcomes
    (shape (alive (.prepare .dropChild :: rest) true true) i c toParent toChild)
    (shape (alive rest true false) i c toParent toChild) := by
  refine Can.change .parent rfl rfl rfl (fun w hw => ⟨_, rfl, ?_⟩) rfl rfl
  simp [hw.party, Shape.setOps, shape]
  simp [parties, alive]

theorem can_dropParent : Can s outcomes
    (shape p (alive (.intermediate .dropParent :: rest) true true) c toParent toChild)
    (shape p (alive rest false true) c toParent toChild) := by
  refine Can.change .intermediate rfl rfl rfl (fun w hw => ⟨_, rfl, ?_⟩) rfl rfl
  simp [hw.party, Shape.setOps, shape]
  simp [parties, alive]

theorem can_forkInit : Can s outcomes
    (shape p (alive (.intermediate .fork :: rest) false true) c toParent toChild)
    (shape p (alive rest false true) (alive ((containerInit s.plan).map .init) false true)
      toParent toChild) := by
  refine Can.change .intermediate rfl rfl rfl (fun w hw => ⟨_, rfl, ?_⟩) rfl rfl
  simp [hw.party, Shape.setOps, shape]
  simp [parties, alive]

theorem can_exit : Can s outcomes
    (shape p (alive [.intermediate .exit] false true) c toParent toChild)
    (shape p exited c toParent toChild) := by
  refine Can.change .intermediate rfl rfl rfl (fun w hw => ⟨_, rfl, ?_⟩) rfl rfl
  simp [hw.party, Shape.setOps, shape]
  simp [parties, alive, exited]

theorem can_close : Can s outcomes
    (shape (alive [.settle .close] true false) i c toParent toChild)
    (shape (alive [] false false) i c toParent toChild) := by
  refine Can.change .parent rfl rfl rfl (fun w hw => ⟨_, rfl, ?_⟩) rfl rfl
  simp [hw.party, Shape.setOps, shape]
  simp [parties, alive]

theorem can_waitIntermediate : Can s outcomes
    (shape (alive (.settle .waitIntermediate :: rest) true false) exited c toParent toChild)
    (shape (alive rest true false) exited c toParent toChild) := by
  refine Can.act .parent rfl rfl rfl fun w hw => ⟨w, ?_, ?_, hw.error, hw.toParent, hw.toChild⟩
  · have hgone : (w.party .intermediate).life = .exited := by rw [hw.party]; rfl
    simp only [perform, performSettle, if_pos hgone]
  · rw [hw.party]
    simp [Shape.setOps, shape]
    simp [parties, alive]

theorem can_recvRequest : Can s outcomes
    (shape (alive [.prepare .recv] true false) i c [.requestUserMapping] toChild)
    (shape (alive (mappingProgram.map .mapping) true false) i c [] toChild) := by
  refine Can.act .parent rfl rfl rfl fun w hw =>
    ⟨({ w with toParent := [] } : World).setOps .parent (mappingProgram.map .mapping), ?_, ?_,
      hw.error, rfl, hw.toChild⟩
  · have hone : w.toParent = [.requestUserMapping] := hw.toParent
    simp only [perform, performPrepare, recvInitPid, hone, if_true]
  · simp [World.setOps, World.update, hw.party, Shape.setOps, shape]
    simp [parties, alive]

theorem can_recvInitPid {op : Op} {pid : Int} {phases : List Sync.Phase}
    (hop : op = .prepare .recv ∨ op = .mapping .recv) : Can s outcomes
    (shape (alive [op] true false) i c [.initPid pid phases] toChild)
    (shape (alive ((settleProgram s.plan pid).map .settle) true false) i c [] toChild) := by
  have hhook : op.hook = none := by rcases hop with rfl | rfl <;> rfl
  refine Can.act .parent rfl rfl hhook fun w hw =>
    ⟨({ w with toParent := [] } : World).setOps .parent ((settleProgram s.plan pid).map .settle),
      ?_, ?_, hw.error, rfl, hw.toChild⟩
  · have hone : w.toParent = [.initPid pid phases] := hw.toParent
    rcases hop with rfl | rfl
    · simp only [perform, performPrepare, recvInitPid, hone]
    · simp only [perform, performMapping, recvInitPid, hone]
  · simp [World.setOps, World.update, hw.party, Shape.setOps, shape]
    simp [parties, alive]

end steps

/-! ## Plain parts of the programs -/

section plain
variable {s : Setting} {outcomes : Outcomes} {phase : Hooks.Phase} {index : Nat}

theorem plain_prepare {x : PrepareOp} (hx : x ∉ [.checkState, .pair, .fork, .dropChild, .recv])
    (hnamespace : x = .checkOverlayNamespace →
      contains s.plan.unshareFlags CLONE_NEWNS = true) : Plain s outcomes (.prepare x) := by
  refine ⟨nofun, fun w who => ?_⟩
  cases x with
  | checkOverlayNamespace =>
      exact ⟨w, by simp only [perform, performPrepare, if_pos (hnamespace rfl)], rfl, rfl, rfl, rfl⟩
  | checkState => simp at hx
  | pair => simp at hx
  | fork => simp at hx
  | dropChild => simp at hx
  | recv => simp at hx
  | _ => exact ⟨_, rfl, rfl, rfl, rfl, rfl⟩

theorem plain_mapping {x : MappingOp} (hx : x ∉ [.sendUserMappingDone, .recv]) :
    Plain s outcomes (.mapping x) := by
  refine ⟨nofun, fun w who => ?_⟩
  cases x with
  | sendUserMappingDone => simp at hx
  | recv => simp at hx
  | _ => exact ⟨_, rfl, rfl, rfl, rfl, rfl⟩

theorem plain_intermediate {x : IntermediateOp} (hx : x ∉ [.dropParent, .sendRequestUserMapping,
    .expectUserMappingDone, .fork, .sendInitPid, .exit]) : Plain s outcomes (.intermediate x) := by
  refine ⟨nofun, fun w who => ?_⟩
  cases x with
  | openNamespace path => exact ⟨_, rfl, rfl, rfl, rfl, rfl⟩
  | setns kind path => exact ⟨_, rfl, rfl, rfl, rfl, rfl⟩
  | unshare name => exact ⟨_, rfl, rfl, rfl, rfl, rfl⟩
  | writeTimeOffsets => exact ⟨_, rfl, rfl, rfl, rfl, rfl⟩
  | setresgid => exact ⟨_, rfl, rfl, rfl, rfl, rfl⟩
  | setresuid => exact ⟨_, rfl, rfl, rfl, rfl, rfl⟩
  | _ => simp at hx

theorem hookError_none (h : outcomes phase index = none) :
    hookError s.plan outcomes phase index = none := by
  simp [hookError, h]

/-- A step of the runtime that only works on the container. -/
theorem plain_settle {x : SettleOp}
    (hx : (∃ pid, x = .addProcess pid) ∨ (∃ phase, x = .hookPayload phase) ∨
      (∃ phase index, x = .hook phase index ∧ hookError s.plan outcomes phase index = none) ∨
      (∃ pid, x = .startTime pid ∨ x = .save pid ∨ x = .writePidFile pid)) :
    Plain s outcomes (.settle x) := by
  rcases hx with ⟨pid, rfl⟩ | ⟨phase, rfl⟩ | ⟨phase, index, rfl, hnone⟩ | ⟨pid, rfl | rfl | rfl⟩
  · exact ⟨nofun, fun w who => ⟨_, rfl, rfl, rfl, rfl, rfl⟩⟩
  · exact ⟨nofun, fun w who => ⟨_, rfl, rfl, rfl, rfl, rfl⟩⟩
  · refine ⟨?_, fun w who => ⟨_, rfl, rfl, rfl, rfl, rfl⟩⟩
    rintro phase' index' ⟨⟩
    exact hnone
  · exact ⟨nofun, fun w who => ⟨_, rfl, rfl, rfl, rfl, rfl⟩⟩
  · exact ⟨nofun, fun w who => ⟨_, rfl, rfl, rfl, rfl, rfl⟩⟩
  · exact ⟨nofun, fun w who => ⟨_, rfl, rfl, rfl, rfl, rfl⟩⟩

theorem plain_init {x : InitOp}
    (hx : x ∉ [.expectCgroupApplied, .sendInitReady, .meetReader, .execve])
    (hhook : ∀ phase index, x = .hook phase index →
      hookError s.plan outcomes phase index = none) : Plain s outcomes (.init x) := by
  constructor
  · intro phase index hop
    rcases hook_stage hop with h | h
    · cases h
    · exact hhook phase index (by simpa using h)
  · intro w who
    cases x with
    | expectCgroupApplied => simp at hx
    | sendInitReady => simp at hx
    | meetReader => simp at hx
    | execve => simp at hx
    | _ => exact ⟨_, rfl, rfl, rfl, rfl, rfl⟩

theorem Creatable.passes (h : Creatable s outcomes) (hphase : phase ∈ Protocol.early) (index : Nat) :
    hookError s.plan outcomes phase index = none := by
  by_cases hindex : index < (selected s.plan.bundle.spec.hooks phase).length
  · exact hookError_none (h.early phase hphase index hindex)
  · simp [hookError, List.getElem?_eq_none (not_lt.mp hindex)]

theorem setup_hook {plan : Plan} (h : .hook phase index ∈ setup plan) :
    phase = .createContainer := by
  have hhook : .hook phase index ∈ hookOps InitOp.hookPayload .hook plan .createContainer →
      phase = .createContainer := by
    intro hmem
    rcases mem_hookOps hmem with hmem | ⟨other, hmem⟩
    · cases hmem
    · cases hmem
      rfl
  have hmount : .hook phase index ∈ mountSteps plan → phase = .createContainer := by
    intro hmem
    unfold mountSteps at hmem
    split at hmem
    · apply hhook
      simp only [List.mem_append, List.mem_cons, List.not_mem_nil, or_false, mem_ifTrue] at hmem
      rcases hmem with ((hmem | hmem) | hmem) | hmem
      · split at hmem <;> simp at hmem
      · exact hmem
      · simp at hmem
      · simp at hmem
    · exact hhook hmem
  simp only [setup, List.mem_append, List.mem_cons, mem_ifTrue] at h
  simp [hardenSteps, securitySteps] at h
  exact hmount h

end plain

/-! ## A whole create -/

section whole
variable {s : Setting} {outcomes : Outcomes}

open PrepareOp in
def prepareFront (plan : Plan) : List PrepareOp :=
  [createDirAll, checkTerminal, namespaceLayout, rootfs, overlay] ++
    ifTrue plan.overlay [checkOverlayNamespace, prepareOverlay, prepareMerged] ++
    [rootfsIsDir, createCgroup] ++ ifTrue plan.resources [applyResources] ++ [createFifo] ++
    ifTrue plan.console [openConsole] ++ [setChildSubreaper, blockForwardable]

theorem prepareProgram_split (plan : Plan) :
    prepareProgram plan = .checkState :: prepareFront plan ++ channelSteps := by
  simp [prepareProgram, prepareFront, channelSteps]

theorem can_prepare (h : Creatable s outcomes) : Can s outcomes
    (shape (alive ((prepareFront s.plan ++ channelSteps).map .prepare) false false) unborn unborn
      [] [])
    (shape (alive [.prepare .recv] true false)
      (alive ((stageOne s.plan).map .intermediate) true true) unborn [] []) := by
  have hplain : ∀ op ∈ (prepareFront s.plan).map Op.prepare, Plain s outcomes op := by
    intro op hop
    obtain ⟨x, hx, rfl⟩ := List.mem_map.mp hop
    apply plain_prepare
    · intro hmem
      simp only [List.mem_cons, List.not_mem_nil, or_false] at hmem
      rcases hmem with rfl | rfl | rfl | rfl | rfl <;> simp [prepareFront] at hx
    · rintro rfl
      exact h.overlay (by simpa [prepareFront] using hx)
  rw [List.map_append]
  exact (can_plain_parent hplain).trans (can_pair.trans (can_fork.trans can_dropChild))

/-- The intermediate from its fork of init on. -/
def lastOps : List Op := [.intermediate .fork, .intermediate .sendInitPid, .intermediate .exit]

theorem can_unshare : Can s outcomes
    (shape (alive [.prepare .recv] true false)
      (alive ((stageOne s.plan).map .intermediate) true true) unborn [] [])
    (shape (alive [.prepare .recv] true false)
      (alive ((mapUser s.plan).map .intermediate ++ lastOps) false true) unborn [] []) := by
  have hsplit : (stageOne s.plan).map Op.intermediate = .intermediate .dropParent ::
      ((joinExisting s.plan ++ unshareAll s.plan).map .intermediate ++
        ((mapUser s.plan).map .intermediate ++ lastOps)) := by
    simp [stageOne, lastOps]
  have hplain : ∀ op ∈ (joinExisting s.plan ++ unshareAll s.plan).map Op.intermediate,
      Plain s outcomes op := by
    intro op hop
    obtain ⟨x, hx, rfl⟩ := List.mem_map.mp hop
    apply plain_intermediate
    intro hmem
    simp only [List.mem_cons, List.not_mem_nil, or_false] at hmem
    rcases hmem with rfl | rfl | rfl | rfl | rfl | rfl <;>
      simp [joinExisting, unshareAll] at hx
  rw [hsplit]
  exact can_dropParent.trans (can_plain_intermediate hplain)

/-- The exchange about the id mappings, where there is one. -/
theorem can_map : ∃ op, (op = .prepare .recv ∨ op = .mapping .recv) ∧ Can s outcomes
    (shape (alive [.prepare .recv] true false)
      (alive ((mapUser s.plan).map .intermediate ++ lastOps) false true) unborn [] [])
    (shape (alive [op] true false) (alive lastOps false true) unborn [] []) := by
  by_cases huser : contains s.plan.unshareFlags CLONE_NEWUSER = true
  · refine ⟨.mapping .recv, Or.inr rfl, ?_⟩
    have hops : (mapUser s.plan).map Op.intermediate ++ lastOps =
        .intermediate .sendRequestUserMapping :: .intermediate .expectUserMappingDone ::
          ([.intermediate .setresgid, .intermediate .setresuid] ++ lastOps) := by
      simp [mapUser, huser, ifTrue]
    have hbefore : ∀ op ∈ [Op.mapping .checkMappings, .mapping .denySetgroups,
        .mapping .writeUidMap, .mapping .writeGidMap], Plain s outcomes op := by
      intro op hop
      simp only [List.mem_cons, List.not_mem_nil, or_false] at hop
      rcases hop with rfl | rfl | rfl | rfl <;> exact plain_mapping (by decide)
    have hafter : ∀ op ∈ [Op.intermediate .setresgid, .intermediate .setresuid],
        Plain s outcomes op := by
      intro op hop
      simp only [List.mem_cons, List.not_mem_nil, or_false] at hop
      rcases hop with rfl | rfl <;> exact plain_intermediate (by decide)
    rw [hops]
    have hask : Can s outcomes
        (shape (alive [.prepare .recv] true false)
          (alive (.intermediate .sendRequestUserMapping :: .intermediate .expectUserMappingDone ::
            ([.intermediate .setresgid, .intermediate .setresuid] ++ lastOps)) false true) unborn
          [] [])
        (shape (alive [.prepare .recv] true false)
          (alive (.intermediate .expectUserMappingDone ::
            ([.intermediate .setresgid, .intermediate .setresuid] ++ lastOps)) false true) unborn
          [.requestUserMapping] []) := can_say rfl fun _ _ => rfl
    have hwrite : Can s outcomes
        (shape (alive (mappingProgram.map .mapping) true false)
          (alive (.intermediate .expectUserMappingDone ::
            ([.intermediate .setresgid, .intermediate .setresuid] ++ lastOps)) false true) unborn
          [] [])
        (shape (alive [.mapping .sendUserMappingDone, .mapping .recv] true false)
          (alive (.intermediate .expectUserMappingDone ::
            ([.intermediate .setresgid, .intermediate .setresuid] ++ lastOps)) false true) unborn
          [] []) := can_plain_parent hbefore
    exact hask.trans (can_recvRequest.trans (hwrite.trans (can_mapped.trans
      (can_hearMapped.trans (can_plain_intermediate hafter)))))
  · refine ⟨.prepare .recv, Or.inl rfl, ?_⟩
    have hnone : mapUser s.plan = [] := by simp [mapUser, huser, ifTrue]
    rw [hnone]
    exact Can.refl _

theorem can_forkLast {op : Op} : Can s outcomes
    (shape (alive [op] true false) (alive lastOps false true) unborn [] [])
    (shape (alive [op] true false) exited (alive ((containerInit s.plan).map .init) false true)
      [.initPid s.initPid s.intermediatePhases] []) := by
  have hsay : Can s outcomes
      (shape (alive [op] true false)
        (alive [.intermediate .sendInitPid, .intermediate .exit] false true)
        (alive ((containerInit s.plan).map .init) false true) [] [])
      (shape (alive [op] true false) (alive [.intermediate .exit] false true)
        (alive ((containerInit s.plan).map .init) false true)
        [.initPid s.initPid s.intermediatePhases] []) := can_say rfl fun _ _ => rfl
  exact can_forkInit.trans (hsay.trans can_exit)

open SettleOp in
/-- The runtime from its wait for a ready init on. -/
def closingOps (pid : Int) : List Op :=
  [.settle expectInitReady, .settle (startTime pid), .settle (save pid),
    .settle (writePidFile pid), .settle close]

theorem can_settle (h : Creatable s outcomes) {op : Op}
    (hop : op = .prepare .recv ∨ op = .mapping .recv) : Can s outcomes
    (shape (alive [op] true false) exited (alive ((containerInit s.plan).map .init) false true)
      [.initPid s.initPid s.intermediatePhases] [])
    (shape (alive (closingOps s.initPid) true false) exited
      (alive ((containerInit s.plan).map .init) false true) [] [.cgroupApplied s.initPid]) := by
  let hooks := hookOps SettleOp.hookPayload .hook s.plan .prestart ++
    hookOps SettleOp.hookPayload .hook s.plan .createRuntime
  have hsplit : (settleProgram s.plan s.initPid).map Op.settle = .settle .waitIntermediate ::
      ((.addProcess s.initPid :: hooks).map .settle ++
        .settle (.sendCgroupApplied s.initPid) :: closingOps s.initPid) := by
    simp [settleProgram, placement, hooks, closingOps]
  have hplain : ∀ op ∈ (SettleOp.addProcess s.initPid :: hooks).map Op.settle,
      Plain s outcomes op := by
    intro op hmem
    obtain ⟨x, hx, rfl⟩ := List.mem_map.mp hmem
    apply plain_settle
    have hhooks : ∀ phase ∈ Protocol.early, x ∈ hookOps SettleOp.hookPayload .hook s.plan phase →
        (∃ phase, x = .hookPayload phase) ∨
          ∃ phase index, x = .hook phase index ∧
            hookError s.plan outcomes phase index = none := by
      intro phase hphase hmem
      rcases mem_hookOps hmem with rfl | ⟨index, rfl⟩
      · exact Or.inl ⟨phase, rfl⟩
      · exact Or.inr ⟨phase, index, rfl, h.passes hphase index⟩
    rcases List.mem_cons.mp hx with rfl | hx
    · exact Or.inl ⟨_, rfl⟩
    · rcases List.mem_append.mp hx with hx | hx
      · rcases hhooks .prestart (by decide) hx with hhook | hhook
        · exact Or.inr (Or.inl hhook)
        · exact Or.inr (Or.inr (Or.inl hhook))
      · rcases hhooks .createRuntime (by decide) hx with hhook | hhook
        · exact Or.inr (Or.inl hhook)
        · exact Or.inr (Or.inr (Or.inl hhook))
  refine (can_recvInitPid hop).trans ?_
  rw [hsplit]
  exact can_waitIntermediate.trans ((can_plain_parent hplain).trans can_permit)

theorem expect_not_mem_mountSteps (plan : Plan) : .expectCgroupApplied ∉ mountSteps plan := by
  have hhook : .expectCgroupApplied ∉ hookOps InitOp.hookPayload .hook plan .createContainer := by
    intro hmem
    rcases mem_hookOps hmem with hmem | ⟨index, hmem⟩ <;> cases hmem
  unfold mountSteps
  split
  · cases plan.overlay <;> simp [hhook]
  · exact hhook

/-- Init waits for its permission only once, at its beginning. -/
theorem setup_tail (plan : Plan) :
    ∃ tail, setup plan = .expectCgroupApplied :: tail ∧ .expectCgroupApplied ∉ tail := by
  refine ⟨_, rfl, ?_⟩
  simp [expect_not_mem_mountSteps, hardenSteps, securitySteps]

theorem can_setup (h : Creatable s outcomes) {p : Party} {ops : List Op}
    (hp : p = alive ops true false) : Can s outcomes
    (shape p exited (alive ((containerInit s.plan).map .init) false true) []
      [.cgroupApplied s.initPid])
    (shape p exited (alive ((parkAndExec s.plan).map .init) false true)
      [.initReady s.initPhases] []) := by
  subst hp
  obtain ⟨tail, htail, honce⟩ := setup_tail s.plan
  have hsplit : (containerInit s.plan).map Op.init = .init .expectCgroupApplied ::
      (tail.map .init ++ .init .sendInitReady :: (parkAndExec s.plan).map .init) := by
    simp [containerInit, htail]
  have hplain : ∀ op ∈ tail.map Op.init, Plain s outcomes op := by
    intro op hmem
    obtain ⟨x, hx, rfl⟩ := List.mem_map.mp hmem
    have hsetup : x ∈ setup s.plan := htail ▸ List.mem_cons_of_mem _ hx
    apply plain_init
    · intro hmem
      simp only [List.mem_cons, List.not_mem_nil, or_false] at hmem
      rcases hmem with rfl | rfl | rfl | rfl
      · exact honce hx
      · cases setup_not_late _ _ hsetup
      · cases setup_not_late _ _ hsetup
      · cases setup_not_late _ _ hsetup
    · rintro phase index rfl
      rw [setup_hook hsetup]
      exact h.passes (by decide) index
  have hreport : Can s outcomes
      (shape (alive ops true false) exited
        (alive (.init .sendInitReady :: (parkAndExec s.plan).map .init) false true) [] [])
      (shape (alive ops true false) exited (alive ((parkAndExec s.plan).map .init) false true)
        [.initReady s.initPhases] []) := can_report rfl fun _ _ => rfl
  rw [hsplit]
  exact can_hearPermit.trans ((can_plain_init hplain).trans hreport)

theorem can_closing {i c : Party} {phases : List Sync.Phase} : Can s outcomes
    (shape (alive (closingOps s.initPid) true false) i c [.initReady phases] [])
    (shape (alive [] false false) i c [] []) := by
  have hplain : ∀ op ∈ [Op.settle (.startTime s.initPid), .settle (.save s.initPid),
      .settle (.writePidFile s.initPid)], Plain s outcomes op := by
    intro op hop
    simp only [List.mem_cons, List.not_mem_nil, or_false] at hop
    rcases hop with rfl | rfl | rfl <;>
      exact plain_settle (Or.inr (Or.inr (Or.inr ⟨s.initPid, by simp⟩)))
  exact can_hearReady.trans ((can_plain_parent hplain).trans can_close)

/-- Where no early hook fails and the plan is not refused, `create` can return well. -/
theorem exists_created (h : Creatable s outcomes) :
    ∃ events w, Transition.run (hookedStep s outcomes) (start s false false) events = some w ∧
      w.returned = some (.ok ()) := by
  obtain ⟨op, hop, hmap⟩ := @can_map s outcomes
  have hcan := (can_prepare h).trans <| can_unshare.trans <| hmap.trans <| can_forkLast.trans <|
    (can_settle h hop).trans <| (can_setup h rfl).trans can_closing
  let first : World := ((start s false false).setOps .parent
    ((prepareFront s.plan ++ channelSteps).map .prepare)).record (.prepare .checkState) true
  have hstart : ((start s false false).party .parent).ops = .prepare .checkState ::
      (prepareFront s.plan ++ channelSteps).map .prepare := by
    simp [start, prepareProgram_split]
  have hfirst : hookedStep s outcomes (start s false false) (.act .parent none) = some first :=
    hookedStep_done rfl hstart (by intro _ _ hhook; cases hhook) rfl
  have hfits : Fits first (shape (alive ((prepareFront s.plan ++ channelSteps).map .prepare)
      false false) unborn unborn [] []) := by
    refine ⟨?_, rfl, rfl, rfl⟩
    funext who
    cases who <;> rfl
  obtain ⟨events, w, hrun, hw⟩ := hcan first hfits
  refine ⟨.act .parent none :: events, w, ?_, ?_⟩
  · rw [Transition.run, hfirst]
    exact hrun
  · have hops : (w.party .parent).ops = [] := by
      rw [hw.party]
      rfl
    simp [World.returned, hops, hw.error]

end whole

end Mars.Protocol
