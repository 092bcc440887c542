import Mars.Container.Exec
import Mars.Core.History
import Mars.Core.Transition
import Mars.Sync

/-! # Executing in a container: two parties and a socket pair

The runtime forks a child that joins the container. The child waits until the
runtime has put it into the container's cgroup. Either may fail or die at any
step, and the steps interleave freely.
-/

namespace Mars.ExecProtocol
open Exec Sync History

/-- What decides which steps there are, and the pid the kernel will hand out. -/
structure Setting where
  options : ExecOptions
  target : Target
  joins : List String
  pid : Nat

/-! ## Steps -/

inductive CallerOp where
  | load
  | checkStatus
  | resolveTarget
  | checkConsole
  | singleThreaded
  | collect
  | openConsole
  | openCgroupProcs
  | createPidFile
  | setns (name : String)
  | blockForwardable
  | pair
  | fork
  | dropChild
  | place (pid : Nat)
  | sendCgroupApplied (pid : Nat)
  | writePidFile
  | supervise
  deriving DecidableEq

inductive ChildOp where
  | dropParent
  | expectCgroupApplied
  | chdirRoot
  | consoleSetup
  | setgroups
  | setgid
  | setuid
  | chdir
  | resolveExecutable
  | toCstrings
  | unblockAll
  | execve
  deriving DecidableEq

inductive Op where
  | caller (op : CallerOp)
  | child (op : ChildOp)
  deriving DecidableEq

open CallerOp in
/-- What precedes the permission for the child to go on. -/
def placement (s : Setting) : List CallerOp :=
  [load, checkStatus, resolveTarget, checkConsole, singleThreaded, collect] ++
    (if s.options.consoleSocket.isSome then [openConsole] else []) ++ [openCgroupProcs] ++
    (if s.options.pidFile.isSome then [createPidFile] else []) ++ s.joins.map setns ++
    [blockForwardable, pair, fork, dropChild, place s.pid]

open CallerOp in
def callerProgram (s : Setting) : List CallerOp :=
  placement s ++ sendCgroupApplied s.pid ::
    (if s.options.pidFile.isSome then [writePidFile] else []) ++
    if s.options.detach then [] else [supervise]

open ChildOp in
/-- The calls of `enter` behind the permission to go on. -/
def enter (s : Setting) : List ChildOp :=
  chdirRoot :: (if s.options.consoleSocket.isSome then [consoleSetup] else []) ++
    (if s.target.gid.isSome then
      (if s.target.groups = [] then [] else [setgroups]) ++ [setgid] else []) ++
    (if s.target.uid.isSome then [setuid] else []) ++
    [chdir, resolveExecutable, toCstrings, unblockAll, execve]

open ChildOp in
def childProgram (s : Setting) : List ChildOp := dropParent :: expectCgroupApplied :: enter s

/-! ## The world -/

inductive Who where
  | caller
  | child
  deriving DecidableEq

structure Party where
  running : Bool
  ops : List Op
  keepsParent : Bool
  keepsChild : Bool

structure World where
  party : Who → Party
  toChild : List Message
  placed : List Nat
  log : List (Entry Op)

def World.update (w : World) (who : Who) (f : Party → Party) : World :=
  { w with party := Function.update w.party who (f (w.party who)) }

def World.setOps (w : World) (who : Who) (ops : List Op) : World :=
  w.update who fun p => { p with ops := ops }

/-- The process is gone, and with it its ends of the socket pair. -/
def World.leave (w : World) (who : Who) : World :=
  w.update who fun _ => { running := false, ops := [], keepsParent := false, keepsChild := false }

def World.record (w : World) (op : Op) (ok : Bool) : World :=
  { w with log := w.log ++ [⟨op, ok⟩] }

def World.parentOpen (w : World) : Bool :=
  (w.party .caller).keepsParent || (w.party .child).keepsParent

def World.childOpen (w : World) : Bool :=
  (w.party .caller).keepsChild || (w.party .child).keepsChild

/-! ## Runs -/

inductive Outcome where
  | done (w : World)
  | failed
  | blocked

def performCaller (s : Setting) (w : World) : CallerOp → Outcome
  | .pair => .done (w.update .caller fun p => { p with keepsParent := true, keepsChild := true })
  | .fork => .done (w.update .child fun _ =>
      { running := true, ops := (childProgram s).map .child,
        keepsParent := (w.party .caller).keepsParent,
        keepsChild := (w.party .caller).keepsChild })
  | .dropChild => .done (w.update .caller fun p => { p with keepsChild := false })
  | .place pid => .done { w with placed := pid :: w.placed }
  | .sendCgroupApplied pid =>
      if w.childOpen then .done { w with toChild := w.toChild ++ [.cgroupApplied pid] }
      else .failed
  | .supervise => if (w.party .child).running then .blocked else .done w
  | _ => .done w

def performChild (w : World) : ChildOp → Outcome
  | .dropParent => .done (w.update .child fun p => { p with keepsParent := false })
  | .expectCgroupApplied =>
      match w.toChild with
      | [] => if w.parentOpen then .blocked else .failed
      | message :: rest =>
          match expect .cgroupApplied message with
          | .ok _ => .done { w with toChild := rest }
          | .error _ => .failed
  | .execve => .done (w.update .child fun p => { p with keepsParent := false, keepsChild := false })
  | _ => .done w

def perform (s : Setting) (w : World) : Op → Outcome
  | .caller op => performCaller s w op
  | .child op => performChild w op

inductive Event where
  | act (who : Who) (fault : Bool)
  | die (who : Who)

/-- After an error the runtime returns and the child exits. -/
def act (s : Setting) (w : World) (who : Who) (fault : Bool) : Option World :=
  match (w.party who).ops with
  | [] => none
  | op :: rest =>
      if fault then some ((w.leave who).record op false)
      else match perform s (w.setOps who rest) op with
        | .done next => some (next.record op true)
        | .failed => some ((w.leave who).record op false)
        | .blocked => none

def step (s : Setting) (w : World) : Event → Option World
  | .act who fault => act s w who fault
  | .die who => if (w.party who).running then some (w.leave who) else none

def start (s : Setting) : World where
  party := fun
    | .caller => { running := true, ops := (callerProgram s).map .caller, keepsParent := false,
                   keepsChild := false }
    | .child => { running := false, ops := [], keepsParent := false, keepsChild := false }
  toChild := []
  placed := []
  log := []

/-! ## The order of the steps -/

def program (s : Setting) : Who → List Op
  | .caller => (callerProgram s).map .caller
  | .child => (childProgram s).map .child

def Op.who : Op → Who
  | .caller _ => .caller
  | .child _ => .child

theorem who_of_mem_program {s : Setting} {op : Op} {who : Who} (h : op ∈ program s who) :
    op.who = who := by
  cases who <;>
    · obtain ⟨x, -, rfl⟩ := List.mem_map.mp h
      rfl

section parts
variable {w : World} {who other : Who} {f : Party → Party} {ops : List Op}

theorem update_party_self : (w.update who f).party who = f (w.party who) := by
  simp [World.update]

theorem update_party_other (h : other ≠ who) : (w.update who f).party other = w.party other := by
  simp [World.update, h]

theorem update_ops (h : ∀ p, (f p).ops = p.ops) :
    ((w.update who f).party other).ops = (w.party other).ops := by
  by_cases hother : other = who
  · subst hother
    rw [update_party_self, h]
  · rw [update_party_other hother]

theorem leave_ops (w : World) (who other : Who) :
    ((w.leave who).party other).ops = (w.party other).ops ∨
    ((w.leave who).party other).ops = [] := by
  by_cases hother : other = who
  · subst hother
    exact Or.inr (by rw [World.leave, update_party_self])
  · exact Or.inl (by rw [World.leave, update_party_other hother])

end parts

/-- Neither party has anything to do besides its program. -/
abbrev Working (s : Setting) (log : List (Entry Op)) (who : Who) (ops : List Op) : Prop :=
  History.Working (program s) id (fun _ => False) log who ops

theorem apart_program (s : Setting) : Apart (program s) fun _ => False where
  programs := fun _ _ _ h h' => (who_of_mem_program h).symm.trans (who_of_mem_program h')
  idle := fun _ _ _ h => h

structure InOrder (s : Setting) (w : World) : Prop where
  working : ∀ who, Working s w.log who (w.party who).ops
  ordered : ∀ who, Ordered w.log (program s who)
  staged : ∀ e ∈ w.log, e.op ∈ program s e.op.who
  applied : ∀ pid, .cgroupApplied pid ∈ w.toChild →
    ⟨.caller (.sendCgroupApplied s.pid), true⟩ ∈ w.log
  afterApplied : Precedes w.log ⟨.caller (.sendCgroupApplied s.pid), true⟩
    (· = ⟨.child .expectCgroupApplied, true⟩)

theorem inOrder_start (s : Setting) : InOrder s (start s) where
  working := by
    intro who
    cases who with
    | caller => exact working_start [] Who.caller
    | child => exact working_nil [] Who.child
  ordered := fun _ => ordered_nil _
  staged := by simp [start]
  applied := by simp [start]
  afterApplied := precedes_nil

/-- What a step that succeeds can do to the programs and the queue. -/
structure Effect (s : Setting) (w : World) (op : Op) (next : World) : Prop where
  log : next.log = w.log
  ops : ∀ other, (next.party other).ops = (w.party other).ops ∨
    (next.party other).ops = program s other
  toChild : ∀ m ∈ next.toChild, m ∈ w.toChild ∨
    ∃ pid, op = .caller (.sendCgroupApplied pid) ∧ m = .cgroupApplied pid
  expected : op = .child .expectCgroupApplied → ∃ pid, .cgroupApplied pid ∈ w.toChild

section effects
variable {s : Setting} {w next : World}

theorem effect_self {op : Op} (hop : op ≠ .child .expectCgroupApplied) : Effect s w op w :=
  ⟨rfl, fun _ => Or.inl rfl, fun _ hm => Or.inl hm, fun heq => absurd heq hop⟩

theorem effect_update {op : Op} {who : Who} {f : Party → Party} (h : ∀ p, (f p).ops = p.ops)
    (hop : op ≠ .child .expectCgroupApplied) : Effect s w op (w.update who f) :=
  ⟨rfl, fun _ => Or.inl (update_ops h), fun _ hm => Or.inl hm, fun heq => absurd heq hop⟩

theorem performCaller_done {op : CallerOp} (h : performCaller s w op = .done next) :
    Effect s w (.caller op) next := by
  cases op with
  | pair =>
      cases h
      exact effect_update (fun _ => rfl) nofun
  | dropChild =>
      cases h
      exact effect_update (fun _ => rfl) nofun
  | fork =>
      cases h
      refine ⟨rfl, fun other => ?_, fun _ hm => Or.inl hm, nofun⟩
      by_cases hother : other = .child
      · subst hother
        exact Or.inr (by rw [update_party_self]; rfl)
      · exact Or.inl (by rw [update_party_other hother])
  | place pid =>
      cases h
      exact ⟨rfl, fun _ => Or.inl rfl, fun _ hm => Or.inl hm, nofun⟩
  | sendCgroupApplied pid =>
      simp only [performCaller] at h
      split at h
      · cases h
        refine ⟨rfl, fun _ => Or.inl rfl, fun m hm => ?_, nofun⟩
        rcases List.mem_append.mp hm with hm | hm
        · exact Or.inl hm
        · exact Or.inr ⟨pid, rfl, List.mem_singleton.mp hm⟩
      · cases h
  | supervise =>
      simp only [performCaller] at h
      split at h
      · cases h
      · cases h
        exact effect_self nofun
  | _ =>
      cases h
      exact effect_self nofun

theorem performChild_done {op : ChildOp} (h : performChild w op = .done next) :
    Effect s w (.child op) next := by
  cases op with
  | dropParent =>
      cases h
      exact effect_update (fun _ => rfl) nofun
  | execve =>
      cases h
      exact effect_update (fun _ => rfl) nofun
  | expectCgroupApplied =>
      simp only [performChild] at h
      split at h
      next => split at h <;> cases h
      next message rest hqueue =>
        split at h
        next result hexpect =>
          cases h
          obtain ⟨pid, rfl⟩ := of_matches_cgroupApplied (expect_ok hexpect).2
          exact ⟨rfl, fun _ => Or.inl rfl,
            fun m hm => Or.inl (hqueue ▸ List.mem_cons_of_mem _ hm),
            fun _ => ⟨pid, hqueue ▸ List.mem_cons_self⟩⟩
        next => cases h
  | _ =>
      cases h
      exact effect_self nofun

theorem perform_done {op : Op} (h : perform s w op = .done next) : Effect s w op next := by
  cases op with
  | caller op => exact performCaller_done h
  | child op => exact performChild_done h

end effects

section step
variable {s : Setting} {w w' next : World} {who : Who} {op : Op} {rest : List Op}

theorem InOrder.progress (h : InOrder s w) (hops : (w.party who).ops = op :: rest) :
    op.who = who ∧ Progress w.log (program s who) (op :: rest) := by
  obtain ⟨_, rfl, hprogress⟩ := (hops ▸ h.working who).progress id
  exact ⟨who_of_mem_program hprogress.mem, hprogress⟩

theorem InOrder.staged_snoc (h : InOrder s w) (hops : (w.party who).ops = op :: rest) (ok : Bool) :
    ∀ e ∈ w.log ++ [⟨op, ok⟩], e.op ∈ program s e.op.who := by
  intro e he
  rcases List.mem_append.mp he with he | he
  · exact h.staged e he
  · obtain rfl := List.mem_singleton.mp he
    obtain ⟨rfl, hprogress⟩ := h.progress hops
    exact hprogress.mem

theorem InOrder.leave (h : InOrder s w) (who : Who) : InOrder s (w.leave who) where
  working := by
    intro other
    rcases leave_ops w who other with hsame | hnil
    · rw [hsame]
      exact h.working other
    · rw [hnil]
      exact working_nil _ other
  ordered := h.ordered
  staged := h.staged
  applied := h.applied
  afterApplied := h.afterApplied

theorem mem_callerProgram_sendCgroupApplied {pid : Nat}
    (h : .sendCgroupApplied pid ∈ callerProgram s) : pid = s.pid := by
  simpa [callerProgram, placement] using h

theorem InOrder.done (h : InOrder s w) (hops : (w.party who).ops = op :: rest)
    (heffect : Effect s (w.setOps who rest) op next) : InOrder s (next.record op true) := by
  have hlog : next.log = w.log := heffect.log
  have hworking : Working s w.log who (op :: rest) := hops ▸ h.working who
  constructor
  case working =>
    intro other
    show Working s (next.log ++ [⟨op, true⟩]) other (next.party other).ops
    rw [hlog]
    rcases heffect.ops other with hsame | hprogram
    · rw [hsame, World.setOps]
      by_cases hother : other = who
      · subst hother
        rw [update_party_self]
        exact hworking.next
      · rw [update_party_other hother]
        exact (h.working other).snoc _
    · rw [hprogram]
      exact working_start _ other
  case ordered =>
    intro other
    show Ordered (next.log ++ [⟨op, true⟩]) (program s other)
    rw [hlog]
    exact hworking.ordered (apart_program s) (h.ordered other)
  case staged =>
    show ∀ e ∈ next.log ++ [⟨op, true⟩], e.op ∈ program s e.op.who
    rw [hlog]
    exact h.staged_snoc hops true
  case applied =>
    intro pid hm
    show _ ∈ next.log ++ [⟨op, true⟩]
    rw [hlog]
    rcases heffect.toChild _ hm with hm | ⟨sent, rfl, hsent⟩
    · exact List.mem_append_left _ (h.applied pid hm)
    · obtain ⟨x, hx, heq⟩ := List.mem_map.mp ((h.progress hops).1 ▸ (h.progress hops).2.mem)
      obtain rfl : x = .sendCgroupApplied sent := by simpa using heq
      simp [mem_callerProgram_sendCgroupApplied hx]
  case afterApplied =>
    show Precedes (next.log ++ [⟨op, true⟩]) _ _
    rw [hlog]
    apply h.afterApplied.snoc
    intro heq
    cases heq
    obtain ⟨pid, hm⟩ := heffect.expected rfl
    exact h.applied pid hm

theorem InOrder.failed (h : InOrder s w) (hops : (w.party who).ops = op :: rest) :
    InOrder s ((w.leave who).record op false) where
  working := fun other => ((h.leave who).working other).snoc _
  ordered := fun other =>
    (show Working s w.log who (op :: rest) from hops ▸ h.working who).ordered (apart_program s)
      (h.ordered other)
  staged := h.staged_snoc hops false
  applied := fun pid hm => List.mem_append_left _ (h.applied pid hm)
  afterApplied := h.afterApplied.snoc fun heq => by cases heq

theorem InOrder.step {event : Event} (h : InOrder s w) (hstep : step s w event = some w') :
    InOrder s w' := by
  cases event with
  | act who fault =>
      simp only [ExecProtocol.step, act] at hstep
      split at hstep
      next => cases hstep
      next op rest hops =>
        split at hstep
        next => exact Option.some.inj hstep ▸ h.failed hops
        next =>
          split at hstep
          next next hdone => exact Option.some.inj hstep ▸ h.done hops (perform_done hdone)
          next => exact Option.some.inj hstep ▸ h.failed hops
          next => cases hstep
  | die who =>
      simp only [ExecProtocol.step, Option.ite_none_right_eq_some] at hstep
      exact Option.some.inj hstep.2 ▸ h.leave who

theorem inOrder_run {events : List Event}
    (h : Transition.run (ExecProtocol.step s) (start s) events = some w) : InOrder s w :=
  Transition.run_invariant (fun _ _ _ hinv hstep => hinv.step hstep) (inOrder_start s) h

theorem InOrder.across {x y : Op} {front : List Op} (h : InOrder s w)
    (hfront : front <+: program s x.who) (hx : x ∉ front) (hy : y ∈ front) :
    Precedes w.log ⟨y, true⟩ fun e => e.op = x := by
  apply (h.ordered x.who).across hfront _ hx hy
  intro e he heq
  exact heq ▸ h.staged e he

/-- The child runs nothing before the runtime has put it into the cgroup. -/
theorem InOrder.place_first (h : InOrder s w) {x : ChildOp} (hx : x ∈ enter s) :
    Precedes w.log ⟨.caller (.place s.pid), true⟩ fun e => e.op = .child x := by
  have hsend : Precedes w.log ⟨.caller (.place s.pid), true⟩
      fun e => e.op = .caller (.sendCgroupApplied s.pid) := by
    have hfront : placement s <+: callerProgram s := by
      rw [callerProgram, List.append_assoc]
      exact List.prefix_append _ _
    apply h.across (hfront.map Op.caller)
    · simp [placement]
    · simp [placement]
  have henter : Precedes w.log ⟨.child .expectCgroupApplied, true⟩ fun e => e.op = .child x := by
    have hfront : [.dropParent, .expectCgroupApplied] <+: childProgram s := ⟨enter s, rfl⟩
    have hx' : x ∉ [ChildOp.dropParent, .expectCgroupApplied] := by
      simp only [List.mem_cons, List.not_mem_nil, or_false]
      rintro (rfl | rfl) <;> simp [enter] at hx
    apply h.across (hfront.map Op.child)
    · simpa using hx'
    · simp
  exact ((hsend.mono fun e he => by rw [he]).trans h.afterApplied).trans henter

end step

end Mars.ExecProtocol
