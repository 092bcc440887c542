import Mars.Container.Lifecycle
import Mars.Core.GroupTree

/-! # Deleting a container

What `delete` reads and does, one call at a time, with whatever the processes of
the container do in between: they fork, exit, rename themselves, make cgroups
below their own and move each other there. A process that was sent `SIGKILL` does
nothing more than exit, but nothing says when.
-/

namespace Mars.Delete
open UnixPath State ProcessTable GroupTree
open Lifecycle (Freeze Removal eventsText)

/-- Where `delete` is. -/
inductive Phase where
  | idle
  | loaded (force : Bool)
  | forced
  | listing
  | killing (pids : List Nat)
  | waiting (polls : Nat)
  | destroying (attempt : Nat)
  | trimming
  | hooks
  | removing
  | ended (result : Except Error Unit)

/-- `killed` are the processes that have a `SIGKILL` to die from. `listed` are those on the last
list that a `delete` has read, which no step looks at. -/
structure World where
  table : State.Table
  groups : Groups Component Unit
  killed : List Nat
  listed : List Nat
  frozen : Bool
  fifo : Bool
  stateFile : Bool
  phase : Phase

variable (container : Container)

/-- The directory of the container's cgroup. -/
def groupDir : List Component := components container.cgroup.path

def World.host (w : World) : Host where
  stat := w.table.host.stat
  cgroupFile := fun path =>
    if path = join container.cgroup.path "cgroup.events" ∧ groupDir container ∈ w.groups.dirs then
      some (eventsText w.frozen)
    else none
  pathExists := fun path => path = container.execFifo && w.fifo

/-! ## What happens outside the command -/

inductive Move where
  | exit (pid : Nat)
  | reap (pid : Nat)
  | rename (pid : Nat) (comm : ByteArray)
  | fork (parent child : Nat) (proc : Proc)
  | mkdir (dir : List Component)
  | rmdir (dir : List Component)
  | move (pid : Nat) (dir : List Component)
  /-- A process comes into the container's own cgroup, by an `exec` or from below. -/
  | enter (pid : Nat)

/-- Someone in the container's cgroups can still act. -/
def World.Active (w : World) : Prop :=
  ∃ p ∈ w.groups.members.procs, groupDir container <+: p.group ∧ p.pid ∉ w.killed

instance (w : World) : Decidable (w.Active container) :=
  inferInstanceAs (Decidable (∃ p ∈ _, _))

/-- Below the container's cgroup. -/
def Below (dir : List Component) : Prop := groupDir container <+: dir ∧ dir ≠ groupDir container

instance (dir : List Component) : Decidable (Below container dir) :=
  inferInstanceAs (Decidable (_ ∧ _))

/-- A process that takes the pid of the recorded one starts at another time. -/
def Newcomer (pid : Nat) (proc : Proc) : Prop :=
  (pid : Int) = container.state.pid → proc.startTime ≠ container.state.startTime

instance (pid : Nat) (proc : Proc) : Decidable (Newcomer container pid proc) :=
  inferInstanceAs (Decidable (_ → _))

def World.regroup (w : World) (groups : Option (Groups Component Unit)) : Option World :=
  groups.map fun groups => { w with groups := groups }

def move (w : World) : Move → Option World
  | .exit pid =>
      match w.table pid with
      | some proc => some { w with
          table := Function.update w.table pid (some { proc with state := .zombie })
          groups := { w.groups with members := w.groups.members.exit pid } }
      | none => none
  | .reap pid =>
      match w.table pid with
      | some proc =>
          if proc.state = .zombie then some { w with
            table := Function.update w.table pid none
            killed := w.killed.filter (· ≠ pid)
            listed := w.listed.filter (· ≠ pid) }
          else none
      | none => none
  | .rename pid comm =>
      match w.table pid with
      | some proc =>
          if hsize : comm.size ≤ 15 then some { w with
            table := Function.update w.table pid (some { proc with comm := comm, commLen := hsize }) }
          else none
      | none => none
  | .fork parent child proc =>
      if parent ∉ w.killed ∧ (w.table child).isNone ∧ Newcomer container child proc then
        (w.groups.members.spawn parent child).map fun members => { w with
          table := Function.update w.table child (some proc)
          groups := { w.groups with members := members } }
      else none
  | .mkdir dir =>
      if Below container dir ∧ w.Active container then w.regroup (w.groups.mkdir dir) else none
  | .rmdir dir =>
      if Below container dir ∧ w.Active container then w.regroup (w.groups.rmdir dir) else none
  | .move pid dir =>
      if Below container dir ∧ w.Active container then w.regroup (w.groups.place pid dir ()) else none
  | .enter pid => w.regroup (w.groups.place pid (groupDir container) ())

/-! ## The command -/

inductive Event where
  | outside (change : Move)
  | delete (force : Bool) (fault : Option Error)
  | status
  | thaw (outcome : Freeze)
  | list (fails : Bool)
  | kill (refused : Bool)
  | poll
  | rmdir (refused : Bool)
  | trim (refused : Bool)
  | hooks
  | remove (removal : Removal)

def World.at (w : World) (phase : Phase) : World := { w with phase := phase }

def load (w : World) (force : Bool) (fault : Option Error) : World :=
  if w.stateFile then
    match fault with
    | some error => w.at (.ended (.error error))
    | none => w.at (.loaded force)
  else w.at (.ended (if force then .ok () else .error (.notFound container.state.id)))

def checkStatus (w : World) (force : Bool) : World :=
  let status := container.status (w.host container)
  if status = .stopped then w.at (.destroying 0)
  else if force = false then
    w.at (.ended (.error (.badState container.state.id status.toText
      "stopped; pass --force to kill it first")))
  else w.at .forced

def thaw (w : World) (outcome : Freeze) : World :=
  if isFrozen (w.host container) container.cgroup then
    match outcome with
    | .refused error => w.at (.ended (.error error))
    | .late => w.at (.ended (.error (.invalid (display (groupDir container) ++
        " did not reach frozen=false within 5s"))))
    | .reached => { w with frozen := false, phase := .listing }
  else w.at .listing

/-- The processes of the cgroup itself; none where they cannot be read. -/
def procs (w : World) (fails : Bool) : List Nat :=
  if fails || groupDir container ∉ w.groups.dirs then []
  else (w.groups.members.members (groupDir container)).map (·.pid)

def poll (w : World) (polls : Nat) : World :=
  if polls = 500 then w.at (.destroying 0)
  else if container.alive (w.host container) then w.at (.waiting (polls + 1))
  else w.at (.destroying 0)

/-- One attempt to remove the cgroup. Whatever ends `destroy` is not looked at. -/
def tryRemove (w : World) (attempt : Nat) (refused : Bool) : World :=
  let dir := groupDir container
  if dir ∉ w.groups.dirs then w.at .hooks
  else if refused then w.at .hooks
  else if w.groups.Busy dir then
    if attempt < 49 then w.at (.destroying (attempt + 1)) else w.at .hooks
  else { w with groups := w.groups.remove dir, phase := .trimming }

/-- The parent goes as well if nothing is left in it. -/
def trim (w : World) (refused : Bool) : World :=
  let parent := (groupDir container).dropLast
  if refused ∨ parent = components V2.MOUNT_POINT then w.at .hooks
  else
    match w.groups.rmdir parent with
    | some groups => { w with groups := groups, phase := .hooks }
    | none => w.at .hooks

def World.remove (w : World) : Removal → World
  | .complete => { w with stateFile := false, fifo := false, phase := .ended (.ok ()) }
  | .partly fifo stateFile error =>
      { w with
        stateFile := w.stateFile && !stateFile
        fifo := w.fifo && !fifo
        phase := .ended (.error error) }

def step (w : World) : Event → Option World
  | .outside change => move container w change
  | .delete force fault =>
      match w.phase with
      | .idle | .ended _ => some (load container w force fault)
      | _ => none
  | .status =>
      match w.phase with
      | .loaded force => some (checkStatus container w force)
      | _ => none
  | .thaw outcome =>
      match w.phase with
      | .forced => some (thaw container w outcome)
      | _ => none
  | .list fails =>
      match w.phase with
      | .listing =>
          let pids := procs container w fails
          some { w with listed := pids, phase := .killing pids }
      | _ => none
  | .kill refused =>
      -- what a signal comes to is not looked at
      match w.phase with
      | .killing (pid :: rest) =>
          some { w with
            killed := if refused then w.killed else pid :: w.killed
            phase := .killing rest }
      | .killing [] => some (w.at (.waiting 0))
      | _ => none
  | .poll =>
      match w.phase with
      | .waiting polls => some (poll container w polls)
      | _ => none
  | .rmdir refused =>
      match w.phase with
      | .destroying attempt => some (tryRemove container w attempt refused)
      | _ => none
  | .trim refused =>
      match w.phase with
      | .trimming => some (trim container w refused)
      | _ => none
  | .hooks =>
      -- a failing poststop hook does not end the command
      match w.phase with
      | .hooks => some (w.at .removing)
      | _ => none
  | .remove removal =>
      match w.phase with
      | .removing => some (w.remove removal)
      | _ => none

/-! ## What is gone stays gone -/

/-- The container's init is dead and its cgroup is not there. -/
def World.Gone (w : World) : Prop :=
  ¬ container.Lives w.table ∧ groupDir container ∉ w.groups.dirs

/-- Past the wait. -/
def Phase.Past : Phase → Prop
  | .destroying _ | .trimming | .hooks | .removing | .ended (.ok _) => True
  | _ => False

/-- Past the removal of the cgroup. -/
def Phase.Final : Phase → Prop
  | .trimming | .hooks | .removing | .ended (.ok _) => True
  | _ => False

/-- Between the list and the end of the wait. -/
def Phase.Awaits : Phase → Prop
  | .killing _ | .waiting _ => True
  | _ => False

/-- The attempt after which `destroy` gives up. -/
def Phase.Last : Phase → Prop
  | .destroying attempt => 49 ≤ attempt
  | _ => False

/-- The processes that are still to be sent a `SIGKILL`. -/
def Phase.left : Phase → List Nat
  | .killing pids => pids
  | _ => []

/-- Init's pid is among these. -/
def Init (pids : List Nat) : Prop := ∃ pid ∈ pids, (pid : Int) = container.state.pid

structure Inv (w : World) : Prop where
  dead : w.phase.Past → ¬ container.Lives w.table
  removed : w.phase.Final → groupDir container ∉ w.groups.dirs
  file : w.stateFile = false → w.Gone container
  listed : w.phase.Awaits → container.Lives w.table → Init container w.listed
  sent : ∀ pid ∈ w.listed, pid ∈ w.phase.left ∨ pid ∈ w.killed

/-- A living init has a name that a `String` can hold. -/
def World.Readable (w : World) : Prop :=
  ∀ p, w.table container.state.pid = some p → p.startTime = container.state.startTime →
    ¬ p.state.exited → p.comm.IsValidUTF8

/-- A living init reads as alive. It is in the container's own cgroup when that is listed, and
dies of its `SIGKILL` before the last poll. Nobody on the list is refused the signal. By the last
attempt to remove the cgroup there is none below it, and gone from it is who was sent a `SIGKILL`
and who was not on the list. -/
def Careful (w : World) : Event → Prop
  | .status => w.Readable container
  | .list fails => container.Lives w.table →
      fails = false ∧ groupDir container ∈ w.groups.dirs ∧
        Init container ((w.groups.members.members (groupDir container)).map (·.pid))
  | .kill refused => refused = true → ∀ pid ∈ w.phase.left.head?, pid ∉ w.listed
  | .poll => w.Readable container ∧
      (w.phase = .waiting 500 → Init container w.killed → ¬ container.Lives w.table)
  | .rmdir refused => groupDir container ∈ w.groups.dirs →
      refused = false ∧ (w.phase.Last → ¬ w.groups.Parent (groupDir container) ∧
        ∀ p ∈ w.groups.members.members (groupDir container),
          p.pid ∉ w.killed ∧ p.pid ∈ w.listed)
  | _ => True

/-- Nothing outside the command changes where it is, or brings back what is gone. Who was
listed is on the list until reaped. -/
structure Kept (w w' : World) : Prop where
  phase : w'.phase = w.phase
  stateFile : w'.stateFile = w.stateFile
  dead : ¬ container.Lives w.table → ¬ container.Lives w'.table
  removed : groupDir container ∉ w.groups.dirs → groupDir container ∉ w'.groups.dirs
  listed : container.Lives w'.table → Init container w.listed → Init container w'.listed
  sent : ∀ pid ∈ w'.listed, pid ∈ w.listed ∧ (pid ∈ w.killed → pid ∈ w'.killed)

variable {container} {w w' : World}

theorem kept_regroup {groups : Option (Groups Component Unit)} (h : w.regroup groups = some w')
    (hdirs : ∀ g, groups = some g → groupDir container ∉ w.groups.dirs →
      groupDir container ∉ g.dirs) : Kept container w w' := by
  obtain ⟨g, hg, rfl⟩ := Option.map_eq_some_iff.mp h
  exact ⟨rfl, rfl, id, hdirs g hg, fun _ => id, fun _ hpid => ⟨hpid, id⟩⟩

theorem kept_table {table : State.Table} {groups : Groups Component Unit}
    (hdirs : groups.dirs = w.groups.dirs)
    (hdead : ¬ container.Lives w.table → ¬ container.Lives table) :
    Kept container w { w with table := table, groups := groups } :=
  ⟨rfl, rfl, hdead, fun h => by rwa [hdirs], fun _ => id, fun _ hpid => ⟨hpid, id⟩⟩

/-- Who is reaped does not live. -/
theorem kept_reap {pid : Nat}
    (hdead : ¬ container.Lives w.table →
      ¬ container.Lives (Function.update w.table (pid : Int) none)) :
    Kept container w { w with
      table := Function.update w.table (pid : Int) none
      killed := w.killed.filter (· ≠ pid)
      listed := w.listed.filter (· ≠ pid) } := by
  refine ⟨rfl, rfl, hdead, id, ?_, ?_⟩
  · rintro ⟨p, hp, -⟩ ⟨init, hmem, hinit⟩
    refine ⟨init, List.mem_filter.mpr ⟨hmem, ?_⟩, hinit⟩
    simp only [decide_eq_true_eq]
    rintro rfl
    have hsome : Function.update w.table (init : Int) none container.state.pid = some p := hp
    rw [← hinit, Function.update_self] at hsome
    cases hsome
  · intro listed hlisted
    obtain ⟨hmem, hne⟩ := List.mem_filter.mp hlisted
    exact ⟨hmem, fun hkilled => List.mem_filter.mpr ⟨hkilled, hne⟩⟩

/-- One entry of the table changes, and lives as the recorded init only if it did before. -/
theorem not_lives_update {table : State.Table} {pid : Int} {entry : Option Proc}
    (hentry : ∀ p, entry = some p → pid = container.state.pid →
      p.startTime = container.state.startTime → ¬ p.state.exited →
        ∃ q, table pid = some q ∧ q.startTime = p.startTime ∧ ¬ q.state.exited)
    (h : ¬ container.Lives table) : ¬ container.Lives (Function.update table pid entry) := by
  rintro ⟨p, hp, hstart, hexited⟩
  by_cases heq : container.state.pid = pid
  · rw [heq, Function.update_self] at hp
    obtain ⟨q, hq, hsame, hlive⟩ := hentry p hp heq.symm hstart hexited
    exact h ⟨q, heq ▸ hq, hsame.trans hstart, hlive⟩
  · rw [Function.update_of_ne heq] at hp
    exact h ⟨p, hp, hstart, hexited⟩

theorem kept_move {change : Move} (h : move container w change = some w') :
    Kept container w w' := by
  cases change with
  | exit pid =>
      simp only [move] at h
      split at h
      next proc hproc =>
        cases h
        refine kept_table rfl (not_lives_update ?_)
        rintro p hp - - hlive
        obtain rfl := Option.some.inj hp
        exact absurd (Or.inl rfl) hlive
      next => cases h
  | reap pid =>
      simp only [move] at h
      split at h
      next proc hproc =>
        split at h
        next =>
          cases h
          exact kept_reap (not_lives_update (by nofun))
        next => cases h
      next => cases h
  | rename pid comm =>
      simp only [move] at h
      split at h
      next proc hproc =>
        split at h
        next =>
          cases h
          refine kept_table rfl (not_lives_update ?_)
          rintro p hp - - hlive
          obtain rfl := Option.some.inj hp
          exact ⟨proc, hproc, rfl, hlive⟩
        next => cases h
      next => cases h
  | fork parent child proc =>
      simp only [move] at h
      split at h
      next hfork =>
        obtain ⟨members, -, rfl⟩ := Option.map_eq_some_iff.mp h
        refine kept_table rfl (not_lives_update ?_)
        intro p hp hpid hstart
        obtain rfl := Option.some.inj hp
        exact absurd hstart (hfork.2.2 hpid)
      next => cases h
  | mkdir dir =>
      simp only [move] at h
      split at h
      next hbelow =>
        exact kept_regroup h fun g hg hgone => Groups.not_mem_mkdir hgone hg hbelow.1.2
      next => cases h
  | rmdir dir =>
      simp only [move] at h
      split at h
      next => exact kept_regroup h fun g hg hgone => Groups.not_mem_rmdir hgone hg
      next => cases h
  | move pid dir =>
      simp only [move] at h
      split at h
      next =>
        refine kept_regroup h fun g hg hgone => ?_
        rw [Groups.dirs_place hg]
        exact hgone
      next => cases h
  | enter pid =>
      refine kept_regroup h fun g hg hgone => ?_
      rw [Groups.dirs_place hg]
      exact hgone

theorem Inv.kept (h : Inv container w) (hkept : Kept container w w') :
    Inv container w' where
  dead := fun hpast => hkept.dead (h.dead (hkept.phase ▸ hpast))
  removed := fun hfinal => hkept.removed (h.removed (hkept.phase ▸ hfinal))
  file := fun hfile =>
    have hgone := h.file (hkept.stateFile ▸ hfile)
    ⟨hkept.dead hgone.1, hkept.removed hgone.2⟩
  listed := by
    intro hawaits hlives
    have hlived : container.Lives w.table := by
      by_contra hdead
      exact hkept.dead hdead hlives
    exact hkept.listed hlives (h.listed (hkept.phase ▸ hawaits) hlived)
  sent := by
    intro pid hpid
    obtain ⟨hlisted, hkilled⟩ := hkept.sent pid hpid
    rw [hkept.phase]
    exact (h.sent pid hlisted).imp_right hkilled

/-! ## What the command makes sure of -/

/-- A change of phase needs what the new phase promises, and nobody left to be sent a signal. -/
theorem Inv.at {phase : Phase} (h : Inv container w) (hleft : w.phase.left = [])
    (hdead : phase.Past → ¬ container.Lives w.table)
    (hremoved : phase.Final → groupDir container ∉ w.groups.dirs)
    (hlisted : phase.Awaits → container.Lives w.table → Init container w.listed) :
    Inv container (w.at phase) where
  dead := hdead
  removed := hremoved
  file := h.file
  listed := hlisted
  sent := by
    intro pid hpid
    have hsent := h.sent pid hpid
    rw [hleft] at hsent
    exact .inr (hsent.resolve_left List.not_mem_nil)

theorem alive_host : container.alive (w.host container) = container.alive w.table.host := rfl

/-- An init that can be read and does not read as alive is dead. -/
theorem not_lives_of_not_alive (hreadable : w.Readable container)
    (halive : container.alive (w.host container) = false) : ¬ container.Lives w.table := by
  rintro ⟨p, hp, hstart, hexited⟩
  have := (container.alive_iff w.table).mpr ⟨p, hp, hstart, hreadable p hp hstart hexited⟩
  rw [alive_host, this] at halive
  cases halive

theorem Inv.load (h : Inv container w) (hleft : w.phase.left = []) (force : Bool)
    (fault : Option Error) : Inv container (load container w force fault) := by
  unfold Delete.load
  split
  next =>
    split
    next => exact h.at hleft (by nofun) (by nofun) (by nofun)
    next => exact h.at hleft (by nofun) (by nofun) (by nofun)
  next hfile =>
    have hgone := h.file (by simpa using hfile)
    exact h.at hleft (fun _ => hgone.1) (fun _ => hgone.2) (by split <;> nofun)

theorem Inv.checkStatus (h : Inv container w) (hleft : w.phase.left = []) (force : Bool)
    (hreadable : w.Readable container) : Inv container (checkStatus container w force) := by
  simp only [Delete.checkStatus]
  split
  next hstopped =>
    have halive := (container.status_stopped_iff (w.host container)).mp hstopped
    exact h.at hleft (fun _ => not_lives_of_not_alive hreadable halive) (by nofun) (by nofun)
  next =>
    split
    next => exact h.at hleft (by nofun) (by nofun) (by nofun)
    next => exact h.at hleft (by nofun) (by nofun) (by nofun)

theorem Inv.thaw (h : Inv container w) (hleft : w.phase.left = []) (outcome : Freeze) :
    Inv container (thaw container w outcome) := by
  unfold Delete.thaw
  split
  next =>
    cases outcome with
    | refused error => exact h.at hleft (by nofun) (by nofun) (by nofun)
    | late => exact h.at hleft (by nofun) (by nofun) (by nofun)
    | reached =>
        have hlisting : Inv container (w.at .listing) :=
          h.at hleft (by nofun) (by nofun) (by nofun)
        exact ⟨by nofun, by nofun, hlisting.file, by nofun, hlisting.sent⟩
  next => exact h.at hleft (by nofun) (by nofun) (by nofun)

/-- A living init in the container's own cgroup is on the list, unless that cannot be read. -/
theorem Inv.list (h : Inv container w) {fails : Bool}
    (hthere : container.Lives w.table → fails = false ∧ groupDir container ∈ w.groups.dirs ∧
      Init container ((w.groups.members.members (groupDir container)).map (·.pid))) :
    Inv container { w with
      listed := procs container w fails, phase := .killing (procs container w fails) } where
  dead := by nofun
  removed := by nofun
  file := h.file
  listed := by
    intro _ hlives
    obtain ⟨rfl, hdir, hinit⟩ := hthere hlives
    rw [procs]
    simpa [hdir] using hinit
  sent := fun pid hpid => .inl hpid

/-- Who is sent the signal is not left, and it is refused to nobody who is still there. -/
theorem Inv.kill {pid : Nat} {rest : List Nat} {refused : Bool} (h : Inv container w)
    (hphase : w.phase = .killing (pid :: rest)) (hrefused : refused = true → pid ∉ w.listed) :
    Inv container { w with
      killed := if refused then w.killed else pid :: w.killed, phase := .killing rest } where
  dead := by nofun
  removed := by nofun
  file := h.file
  listed := by
    intro _ hlives
    exact h.listed (hphase ▸ trivial) hlives
  sent := by
    intro listed hlisted
    have hsent := h.sent listed hlisted
    rw [hphase] at hsent
    rcases hsent with hleft | hkilled
    · rcases List.mem_cons.mp hleft with rfl | hrest
      · cases refused with
        | true => exact absurd hlisted (hrefused rfl)
        | false => exact .inr List.mem_cons_self
      · exact .inl hrest
    · cases refused with
      | true => exact .inr hkilled
      | false => exact .inr (List.mem_cons_of_mem pid hkilled)

/-- Who has been listed has been sent a signal once nobody is left. -/
theorem Inv.killed (h : Inv container w) (hleft : w.phase.left = []) {pid : Nat}
    (hpid : pid ∈ w.listed) : pid ∈ w.killed := by
  have hsent := h.sent pid hpid
  rw [hleft] at hsent
  exact hsent.resolve_left List.not_mem_nil

/-- The wait ends with init dead: it was sent a signal, and is given the time to die. -/
theorem Inv.poll {polls : Nat} (h : Inv container w) (hphase : w.phase = .waiting polls)
    (hreadable : w.Readable container)
    (hdies : w.phase = .waiting 500 → Init container w.killed → ¬ container.Lives w.table) :
    Inv container (poll container w polls) := by
  have hleft : w.phase.left = [] := by rw [hphase]; rfl
  have hlisted := h.listed (hphase ▸ trivial)
  unfold Delete.poll
  split
  next hlast =>
    refine h.at hleft (fun _ hlives => ?_) (by nofun) (by nofun)
    obtain ⟨pid, hpid, hinit⟩ := hlisted hlives
    exact hdies (hlast ▸ hphase) ⟨pid, h.killed hleft hpid, hinit⟩ hlives
  next =>
    split
    next => exact h.at hleft (by nofun) (by nofun) fun _ => hlisted
    next halive =>
      exact h.at hleft (fun _ => not_lives_of_not_alive hreadable (by simpa using halive))
        (by nofun) (by nofun)

/-- At the last attempt the cgroup is empty: who was listed was sent a signal. -/
theorem Inv.not_busy (h : Inv container w) (hleft : w.phase.left = [])
    (hparent : ¬ w.groups.Parent (groupDir container))
    (hgone : ∀ p ∈ w.groups.members.members (groupDir container),
      p.pid ∉ w.killed ∧ p.pid ∈ w.listed) : ¬ w.groups.Busy (groupDir container) := by
  rintro (hmembers | hthere)
  · obtain ⟨p, hp⟩ := List.exists_mem_of_ne_nil _ hmembers
    obtain ⟨hunkilled, hlisted⟩ := hgone p hp
    exact hunkilled (h.killed hleft hlisted)
  · exact hparent hthere

/-- `destroy` ends with the cgroup gone unless its last attempt fails. -/
theorem Inv.tryRemove {attempt : Nat} {refused : Bool} (h : Inv container w)
    (hleft : w.phase.left = []) (hdead : ¬ container.Lives w.table)
    (hend : groupDir container ∈ w.groups.dirs →
      refused = false ∧ (w.groups.Busy (groupDir container) → attempt < 49)) :
    Inv container (tryRemove container w attempt refused) := by
  simp only [Delete.tryRemove]
  split
  next hgone => exact h.at hleft (fun _ => hdead) (fun _ => hgone) False.elim
  next hthere =>
    obtain ⟨hrefused, hattempt⟩ := hend (by simpa using hthere)
    rw [hrefused, if_neg Bool.false_ne_true]
    split
    next hbusy =>
      rw [if_pos (hattempt hbusy)]
      exact h.at hleft (fun _ => hdead) (by intro hpast; cases hpast) False.elim
    next =>
      exact {
        dead := fun _ => hdead
        removed := fun _ => Groups.not_mem_remove
        file := fun hfile => ⟨hdead, Groups.not_mem_remove⟩
        listed := False.elim
        sent := fun pid hpid => .inr (h.killed hleft hpid) }

theorem Inv.trim (h : Inv container w) (hleft : w.phase.left = []) (hgone : w.Gone container)
    (refused : Bool) : Inv container (trim container w refused) := by
  simp only [Delete.trim]
  split
  next => exact h.at hleft (fun _ => hgone.1) (fun _ => hgone.2) (by nofun)
  next =>
    split
    next groups hrmdir =>
      have hkept := Groups.not_mem_rmdir hgone.2 hrmdir
      exact {
        dead := fun _ => hgone.1
        removed := fun _ => hkept
        file := fun _ => ⟨hgone.1, hkept⟩
        listed := by nofun
        sent := fun pid hpid => .inr (h.killed hleft hpid) }
    next => exact h.at hleft (fun _ => hgone.1) (fun _ => hgone.2) (by nofun)

theorem Inv.remove (h : Inv container w) (hleft : w.phase.left = []) (hgone : w.Gone container)
    (removal : Removal) : Inv container (w.remove removal) := by
  have hsent : ∀ pid ∈ w.listed, pid ∈ w.killed := fun pid hpid => h.killed hleft hpid
  cases removal with
  | complete =>
      exact ⟨fun _ => hgone.1, fun _ => hgone.2, fun _ => hgone, by nofun,
        fun pid hpid => .inr (hsent pid hpid)⟩
  | partly fifo stateFile error =>
      exact ⟨by nofun, by nofun, fun _ => hgone, by nofun, fun pid hpid => .inr (hsent pid hpid)⟩

theorem Inv.step {e : Event} (h : Inv container w) (hcareful : Careful container w e)
    (hstep : step container w e = some w') : Inv container w' := by
  have hpast : ∀ {phase}, w.phase = phase → phase.Past → ¬ container.Lives w.table :=
    fun hphase hpast => h.dead (hphase ▸ hpast)
  have hgone : ∀ {phase}, w.phase = phase → phase.Past → phase.Final → w.Gone container :=
    fun hphase hpast hfinal => ⟨h.dead (hphase ▸ hpast), h.removed (hphase ▸ hfinal)⟩
  have hleft : ∀ {phase}, w.phase = phase → phase.left = [] → w.phase.left = [] :=
    fun hphase hnone => hphase ▸ hnone
  cases e with
  | outside change => exact h.kept (kept_move hstep)
  | delete force fault =>
      simp only [Delete.step] at hstep
      split at hstep
      next hphase => cases hstep; exact h.load (hleft hphase rfl) force fault
      next result hphase => cases hstep; exact h.load (hleft hphase rfl) force fault
      next => cases hstep
  | status =>
      simp only [Delete.step] at hstep
      split at hstep
      next hphase => cases hstep; exact h.checkStatus (hleft hphase rfl) _ hcareful
      next => cases hstep
  | thaw outcome =>
      simp only [Delete.step] at hstep
      split at hstep
      next hphase => cases hstep; exact h.thaw (hleft hphase rfl) outcome
      next => cases hstep
  | list fails =>
      simp only [Delete.step] at hstep
      split at hstep
      next => cases hstep; exact h.list hcareful
      next => cases hstep
  | kill refused =>
      simp only [Delete.step] at hstep
      split at hstep
      next hphase =>
        cases hstep
        refine h.kill hphase fun hrefused => hcareful hrefused _ ?_
        rw [hphase]
        rfl
      next hphase =>
        cases hstep
        exact h.at (hleft hphase rfl) (by nofun) (by nofun) fun _ => h.listed (hphase ▸ trivial)
      next => cases hstep
  | poll =>
      simp only [Delete.step] at hstep
      split at hstep
      next hphase => cases hstep; exact h.poll hphase hcareful.1 hcareful.2
      next => cases hstep
  | rmdir refused =>
      simp only [Delete.step] at hstep
      split at hstep
      next attempt hphase =>
        cases hstep
        have hnone := hleft hphase rfl
        refine h.tryRemove hnone (hpast hphase trivial) fun hthere => ?_
        obtain ⟨hrefused, hlast⟩ := hcareful hthere
        refine ⟨hrefused, fun hbusy => ?_⟩
        by_contra hmany
        have hend : w.phase.Last := by
          rw [hphase]
          exact Nat.le_of_not_lt hmany
        obtain ⟨hparent, hmembers⟩ := hlast hend
        exact h.not_busy hnone hparent hmembers hbusy
      next => cases hstep
  | trim refused =>
      simp only [Delete.step] at hstep
      split at hstep
      next hphase =>
        cases hstep
        exact h.trim (hleft hphase rfl) (hgone hphase trivial trivial) refused
      next => cases hstep
  | hooks =>
      simp only [Delete.step] at hstep
      split at hstep
      next hphase =>
        cases hstep
        have hgone := hgone hphase trivial trivial
        exact h.at (hleft hphase rfl) (fun _ => hgone.1) (fun _ => hgone.2) (by nofun)
      next => cases hstep
  | remove removal =>
      simp only [Delete.step] at hstep
      split at hstep
      next hphase =>
        cases hstep
        exact h.remove (hleft hphase rfl) (hgone hphase trivial trivial) removal
      next => cases hstep

/-- Whatever the container's processes do meanwhile, a `delete` that returns without
an error, or takes the state file away, leaves neither init nor the cgroup behind. -/
theorem careful_delete_gone {events : List Event} (hidle : w.phase = .idle)
    (hfile : w.stateFile = true) (hunlisted : w.listed = [])
    (hrun : Transition.run (step container) w events = some w')
    (hcareful : Transition.Along (step container) (Careful container) w events)
    (hdone : w'.phase = .ended (.ok ()) ∨ w'.stateFile = false) : w'.Gone container := by
  have hstart : Inv container w := by
    refine ⟨?_, ?_, ?_, ?_, ?_⟩
    · rw [hidle]; nofun
    · rw [hidle]; nofun
    · rw [hfile]; nofun
    · rw [hidle]; nofun
    · rw [hunlisted]; nofun
  have hinv := Transition.run_invariant_along (fun _ _ _ h hok hstep => h.step hok hstep)
    hstart hrun hcareful
  rcases hdone with hok | hfile
  · exact ⟨hinv.dead (hok ▸ trivial), hinv.removed (hok ▸ trivial)⟩
  · exact hinv.file hfile

/-! ## A container that moved its init below -/

theorem run_polls (halive : container.alive (w.host container) = true) (n k : Nat)
    (hbound : k + n ≤ 500) :
    Transition.run (step container) (w.at (.waiting k)) (List.replicate n .poll) =
      some (w.at (.waiting (k + n))) := by
  induction n generalizing k with
  | zero => rfl
  | succ n ih =>
      have hnot : k ≠ 500 := by omega
      have hpoll : step container (w.at (.waiting k)) .poll = some (w.at (.waiting (k + 1))) := by
        show some (poll container (w.at (.waiting k)) k) = _
        have hsame : container.alive ((w.at (.waiting k)).host container) = true := halive
        rw [poll, if_neg hnot, hsame]
        rfl
      rw [List.replicate_succ, Transition.run_cons_eq_some]
      refine ⟨_, hpoll, ?_⟩
      rw [ih (k + 1) (by omega)]
      congr 2
      rw [Nat.add_right_comm, Nat.add_assoc]

theorem run_attempts (hthere : groupDir container ∈ w.groups.dirs)
    (hbusy : w.groups.Busy (groupDir container)) (n k : Nat) (hbound : k + n ≤ 49) :
    Transition.run (step container) (w.at (.destroying k)) (List.replicate n (.rmdir false)) =
      some (w.at (.destroying (k + n))) := by
  induction n generalizing k with
  | zero => rfl
  | succ n ih =>
      have hattempt : step container (w.at (.destroying k)) (.rmdir false) =
          some (w.at (.destroying (k + 1))) := by
        show some (tryRemove container (w.at (.destroying k)) k false) = _
        have hlt : k < 49 := by omega
        simp only [tryRemove, World.at, hthere, hbusy, hlt, not_true_eq_false, Bool.false_eq_true,
          ↓reduceIte]
      rw [List.replicate_succ, Transition.run_cons_eq_some]
      refine ⟨_, hattempt, ?_⟩
      rw [ih (k + 1) (by omega)]
      congr 2
      rw [Nat.add_right_comm, Nat.add_assoc]

/-- A forced `delete` of a container that is not frozen, up to its list. -/
def approach : List Event := [.delete true none, .status, .thaw .late]

def stubborn : List Event :=
  approach ++ (.list false :: .kill false :: (List.replicate 500 .poll ++ (.poll ::
    (List.replicate 49 (.rmdir false) ++ [.rmdir false, .hooks, .remove .complete]))))

theorem step_delete (hfile : w.stateFile = true) :
    step container (w.at .idle) (.delete true none) = some (w.at (.loaded true)) := by
  show some (load container (w.at .idle) true none) = _
  have hsame : (w.at .idle).stateFile = true := hfile
  rw [load, hsame]
  rfl

theorem step_status (halive : container.alive (w.host container) = true) :
    step container (w.at (.loaded true)) .status = some (w.at .forced) := by
  show some (checkStatus container (w.at (.loaded true)) true) = _
  have hnot : container.status ((w.at (.loaded true)).host container) ≠ .stopped := by
    intro hstopped
    have hdead := (container.status_stopped_iff _).mp hstopped
    exact absurd (halive.symm.trans hdead) (by decide)
  simp only [checkStatus, hnot, ↓reduceIte, Bool.true_eq_false]
  rfl

theorem step_thaw (hfrozen : isFrozen (w.host container) container.cgroup = false) :
    step container (w.at .forced) (.thaw .late) = some (w.at .listing) := by
  show some (thaw container (w.at .forced) .late) = _
  have hsame : isFrozen ((w.at .forced).host container) container.cgroup = false := hfrozen
  rw [thaw, hsame]
  rfl

theorem run_approach (hfile : w.stateFile = true) (halive : container.alive (w.host container) = true)
    (hfrozen : isFrozen (w.host container) container.cgroup = false) :
    Transition.run (step container) (w.at .idle) approach = some (w.at .listing) := by
  simp only [approach, Transition.run, step_delete hfile, step_status halive, step_thaw hfrozen,
    Option.bind_some]

/-- A container without a process in its own cgroup, and with one in a child of it,
outlives its deletion. -/
theorem stubborn_outlives (hfile : w.stateFile = true)
    (halive : container.alive (w.host container) = true)
    (hfrozen : isFrozen (w.host container) container.cgroup = false)
    (hempty : w.groups.members.members (groupDir container) = [])
    (hparent : w.groups.Parent (groupDir container)) (hthere : groupDir container ∈ w.groups.dirs) :
    Transition.run (step container) (w.at .idle) stubborn =
      some { w with listed := [], stateFile := false, fifo := false, phase := .ended (.ok ()) } := by
  have hbusy : w.groups.Busy (groupDir container) := Or.inr hparent
  let unlisted : World := { w with listed := [] }
  have hlist : step container (w.at .listing) (.list false) =
      some (unlisted.at (.killing [])) := by
    have hprocs : procs container (w.at .listing) false = [] := by
      have hsame : (w.at .listing).groups.members.members (groupDir container) = [] := hempty
      simp only [procs, hsame, List.map_nil, ite_self]
    show some { w.at .listing with
      listed := procs container (w.at .listing) false
      phase := .killing (procs container (w.at .listing) false) } = _
    rw [hprocs]
    rfl
  have hkill : step container (unlisted.at (.killing [])) (.kill false) =
      some (unlisted.at (.waiting 0)) := rfl
  have hpolls : Transition.run (step container) (unlisted.at (.waiting 0))
      (List.replicate 500 .poll) = some (unlisted.at (.waiting 500)) :=
    run_polls (w := unlisted) halive 500 0 le_rfl
  have hgiveUp : step container (unlisted.at (.waiting 500)) .poll =
      some (unlisted.at (.destroying 0)) := rfl
  have hattempts : Transition.run (step container) (unlisted.at (.destroying 0))
      (List.replicate 49 (.rmdir false)) = some (unlisted.at (.destroying 49)) :=
    run_attempts (w := unlisted) hthere hbusy 49 0 le_rfl
  have hlast : step container (unlisted.at (.destroying 49)) (.rmdir false) =
      some (unlisted.at .hooks) := by
    show some (tryRemove container (unlisted.at (.destroying 49)) 49 false) = _
    simp only [tryRemove, World.at, unlisted, hthere, hbusy, not_true_eq_false,
      Bool.false_eq_true, ↓reduceIte, lt_self_iff_false]
  rw [stubborn, Transition.run_append, run_approach hfile halive hfrozen, Option.bind_some,
    Transition.run_cons_eq_some]
  refine ⟨_, hlist, Transition.run_cons_eq_some.mpr ⟨_, hkill, ?_⟩⟩
  rw [Transition.run_append, hpolls, Option.bind_some, Transition.run_cons_eq_some]
  refine ⟨_, hgiveUp, ?_⟩
  rw [Transition.run_append, hattempts, Option.bind_some, Transition.run_cons_eq_some]
  exact ⟨_, hlast, rfl⟩

theorem stubborn_leaves (hfile : w.stateFile = true)
    (hreads : container.alive (w.host container) = true)
    (hfrozen : isFrozen (w.host container) container.cgroup = false)
    (hempty : w.groups.members.members (groupDir container) = [])
    (hparent : w.groups.Parent (groupDir container)) (hthere : groupDir container ∈ w.groups.dirs)
    (hlives : container.Lives w.table) :
    ∃ w', Transition.run (step container) (w.at .idle) stubborn = some w' ∧
      w'.phase = .ended (.ok ()) ∧ w'.stateFile = false ∧
        container.Lives w'.table ∧ groupDir container ∈ w'.groups.dirs :=
  ⟨_, stubborn_outlives hfile hreads hfrozen hempty hparent hthere, rfl, rfl, hlives, hthere⟩

/-! ## Runs of one container -/

def cgroupRoot : List Component := components V2.MOUNT_POINT

/-- A running container whose init is in its cgroup. -/
def demoWorld : World where
  table := demoTable "sh".toByteArray (by decide) .sleeping
  groups :=
    { dirs := [cgroupRoot, components "/sys/fs/cgroup/mars", groupDir demoContainer]
      members := ⟨[⟨7, groupDir demoContainer, []⟩], by decide⟩ }
  killed := []
  listed := []
  frozen := false
  fifo := false
  stateFile := true
  phase := .idle

def scope : List Component := components "/sys/fs/cgroup/mars/demo/init"

/-- Init makes a cgroup below its own and moves there. -/
def moving : List Event := [.outside (.mkdir scope), .outside (.move 7 scope)]

def movedGroups : Groups Component Unit where
  dirs := scope :: demoWorld.groups.dirs
  members := ⟨[⟨7, scope, [()]⟩], by decide⟩

theorem demo_lives : demoContainer.Lives demoWorld.table :=
  ⟨_, rfl, rfl, by simp [ProcState.exited]⟩

theorem demo_alive : demoContainer.alive demoWorld.table.host = true := by
  apply (demoContainer.alive_iff demoWorld.table).mpr
  exact ⟨_, rfl, rfl, "sh".isValidUTF8⟩

def movedWorld : World := { demoWorld with groups := movedGroups }

theorem run_moving :
    Transition.run (step demoContainer) demoWorld moving = some (movedWorld.at .idle) := by
  have hmkdir : step demoContainer demoWorld (.outside (.mkdir scope)) =
      some { demoWorld with
        groups := { demoWorld.groups with dirs := scope :: demoWorld.groups.dirs } } := by
    have hcan : Below demoContainer scope ∧ demoWorld.Active demoContainer := by decide +kernel
    have hfree : scope ∉ demoWorld.groups.dirs ∧ scope.dropLast ∈ demoWorld.groups.dirs := by
      decide +kernel
    simp only [step, move, hcan, and_self, ↓reduceIte, World.regroup, Groups.mkdir, hfree,
      not_false_eq_true, Option.map_some]
  have hmove : step demoContainer
      { demoWorld with groups := { demoWorld.groups with dirs := scope :: demoWorld.groups.dirs } }
      (.outside (.move 7 scope)) = some (movedWorld.at .idle) := by
    have hcan : Below demoContainer scope ∧
        World.Active demoContainer { demoWorld with
          groups := { demoWorld.groups with dirs := scope :: demoWorld.groups.dirs } } := by
      decide +kernel
    simp only [step, move, hcan, and_self, ↓reduceIte, World.regroup, Groups.place,
      List.mem_cons_self, Option.map_some]
    rfl
  simp only [moving, Transition.run, hmkdir, hmove, Option.bind_some]

theorem delete_leaves_init_running : ∃ w',
    Transition.run (step demoContainer) demoWorld (moving ++ stubborn) = some w' ∧
      w'.phase = .ended (.ok ()) ∧ w'.stateFile = false ∧
        demoContainer.Lives w'.table ∧ groupDir demoContainer ∈ w'.groups.dirs := by
  rw [Transition.run_append, run_moving, Option.bind_some]
  exact stubborn_leaves rfl demo_alive (by decide +kernel) (by decide +kernel) (by decide +kernel)
    (by decide +kernel) demo_lives

/-- Init is listed and sent the signal, and dies of it after a poll. -/
def killing : List Event :=
  [.list false, .kill false, .kill false, .poll, .outside (.exit 7), .outside (.reap 7), .poll]

def tidying : List Event := [.rmdir false, .trim false, .hooks, .remove .complete]

/-- Init has been sent the signal. -/
def signalledWorld : World := { demoWorld with killed := [7], listed := [7] }

def zombieWorld : World :=
  { signalledWorld with
    table := Function.update demoWorld.table 7 (demoTable "sh".toByteArray (by decide) .zombie 7)
    groups := { demoWorld.groups with members := ⟨[], by decide⟩ } }

def reapedWorld : World :=
  { zombieWorld with
    table := Function.update zombieWorld.table 7 none
    killed := []
    listed := [] }

theorem demo_readable : demoWorld.Readable demoContainer := by
  intro p hp _ _
  obtain rfl := Option.some.inj hp
  exact "sh".isValidUTF8

theorem step_list_demo : step demoContainer (demoWorld.at .listing) (.list false) =
    some { demoWorld with listed := [7], phase := .killing [7] } := by
  have hprocs : procs demoContainer (demoWorld.at .listing) false = [7] := by decide +kernel
  show some { demoWorld.at .listing with
    listed := procs demoContainer (demoWorld.at .listing) false
    phase := .killing (procs demoContainer (demoWorld.at .listing) false) } = _
  rw [hprocs]
  rfl

theorem step_poll_alive : step demoContainer (signalledWorld.at (.waiting 0)) .poll =
    some (signalledWorld.at (.waiting 1)) := by
  show some (poll demoContainer (signalledWorld.at (.waiting 0)) 0) = _
  have halive : demoContainer.alive ((signalledWorld.at (.waiting 0)).host demoContainer) = true :=
    demo_alive
  simp only [poll, halive, OfNat.zero_ne_ofNat, ↓reduceIte]
  rfl

theorem step_poll_dead : step demoContainer (reapedWorld.at (.waiting 1)) .poll =
    some (reapedWorld.at (.destroying 0)) := by
  show some (poll demoContainer (reapedWorld.at (.waiting 1)) 1) = _
  have hdead : demoContainer.alive ((reapedWorld.at (.waiting 1)).host demoContainer) = false := by
    rw [Bool.eq_false_iff]
    intro halive
    obtain ⟨p, hp, -⟩ := (demoContainer.alive_iff reapedWorld.table).mp halive
    cases hp
  simp only [poll, hdead, OfNat.one_ne_ofNat, Bool.false_eq_true, ↓reduceIte]
  rfl

theorem step_exit_demo : step demoContainer (signalledWorld.at (.waiting 1)) (.outside (.exit 7)) =
    some (zombieWorld.at (.waiting 1)) := rfl

theorem step_reap_demo : step demoContainer (zombieWorld.at (.waiting 1)) (.outside (.reap 7)) =
    some (reapedWorld.at (.waiting 1)) := rfl

theorem run_killing : Transition.run (step demoContainer) (demoWorld.at .listing) killing =
    some (reapedWorld.at (.destroying 0)) := by
  have hkill : step demoContainer { demoWorld with listed := [7], phase := .killing [7] }
      (.kill false) =
      some (signalledWorld.at (.killing [])) := rfl
  have hlast : step demoContainer (signalledWorld.at (.killing [])) (.kill false) =
      some (signalledWorld.at (.waiting 0)) := rfl
  simp only [killing, Transition.run, step_list_demo, hkill, hlast, step_poll_alive, step_exit_demo,
    step_reap_demo, step_poll_dead, Option.bind_some]

theorem careful_approach : Transition.Along (step demoContainer) (Careful demoContainer)
    (demoWorld.at .idle) approach :=
  Transition.along_cons trivial (step_delete rfl) <|
    Transition.along_cons demo_readable (step_status demo_alive) <|
      Transition.along_cons trivial (step_thaw (by decide +kernel)) trivial

theorem careful_killing : Transition.Along (step demoContainer) (Careful demoContainer)
    (demoWorld.at .listing) killing := by
  have hlist : Careful demoContainer (demoWorld.at .listing) (.list false) := by
    intro _
    refine ⟨rfl, ?_, ?_⟩
    · decide +kernel
    · exact ⟨7, by decide +kernel, rfl⟩
  have hpoll : Careful demoContainer (signalledWorld.at (.waiting 0)) .poll :=
    ⟨demo_readable, fun h => by cases h⟩
  have hlast : Careful demoContainer (reapedWorld.at (.waiting 1)) .poll := by
    constructor
    · intro p hp
      cases hp
    · intro h
      cases h
  have hgranted : ∀ w, Careful demoContainer w (.kill false) :=
    fun _ hrefused => absurd hrefused Bool.false_ne_true
  exact Transition.along_cons hlist step_list_demo <| Transition.along_cons (hgranted _) rfl <|
    Transition.along_cons (hgranted _) rfl <| Transition.along_cons hpoll step_poll_alive <|
      Transition.along_cons trivial step_exit_demo <| Transition.along_cons trivial step_reap_demo <|
        Transition.along_cons hlast step_poll_dead trivial

theorem careful_tidying : Transition.Along (step demoContainer) (Careful demoContainer)
    (reapedWorld.at (.destroying 0)) tidying := by
  have hfirst : Careful demoContainer (reapedWorld.at (.destroying 0)) (.rmdir false) :=
    fun _ => ⟨rfl, fun hlast => absurd (show 49 ≤ 0 from hlast) (by decide)⟩
  exact ⟨hfirst, trivial, trivial, trivial, trivial⟩

theorem tidying_enabled : (Transition.run (step demoContainer) (reapedWorld.at (.destroying 0))
    tidying).isSome = true := by
  decide +kernel

theorem approach_demo :
    Transition.run (step demoContainer) demoWorld approach = some (demoWorld.at .listing) :=
  run_approach (w := demoWorld) rfl demo_alive (by decide +kernel)

theorem run_demo : Transition.run (step demoContainer) demoWorld (approach ++ (killing ++ tidying)) =
    some (Option.get _ tidying_enabled) := by
  rw [Transition.run_append, approach_demo, Option.bind_some, Transition.run_append, run_killing,
    Option.bind_some, Option.some_get]

/-- A running container is killed, waited for and removed. -/
theorem careful_delete_gone_killed : demoContainer.Lives demoWorld.table ∧
    (Option.get _ tidying_enabled).Gone demoContainer := by
  have hcareful : Transition.Along (step demoContainer) (Careful demoContainer) demoWorld
      (approach ++ (killing ++ tidying)) :=
    Transition.along_append careful_approach approach_demo
      (Transition.along_append careful_killing run_killing careful_tidying)
  exact ⟨demo_lives, careful_delete_gone rfl rfl rfl run_demo hcareful (Or.inl rfl)⟩

end Mars.Delete
